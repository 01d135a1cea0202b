/-
# The order of pipelines

`AthenaPipeline::Compile` makes one entry function for each group of pipelines, and `ExecuteAll`
runs the functions in the order of the groups, which is that of a hash map.  A group runs its
pipelines in the order of the list.

So `Execute` runs all pipelines, each once and alone, but in an order of its own (`execute_order`).
It is the order of the list for what pipelines of different groups cannot see of each other; two of
them that store to one slot can.
-/
import JitFusion.Athena
import JitFusion.Isolation
import JitFusion.Lib.Reorder

namespace JitFusion

open CodeGen Validator PipelineGrouper

namespace Athena

/-! ## 1. Compiled pipelines -/

/-- The entry function of an annotated root.  The verifier has accepted it. -/
def IsEntry (ctx : Context) (node : ExecNode) (F : IRFunction) : Prop :=
  ∃ s', (buildEntryFunction ctx node).run entryState = .ok ((), s') ∧ s'.builder.blocks = F ∧
    Verified F

/-- `AthenaPipeline::Compile` builds the roots from the texts and the entry functions from the
groups of the roots. -/
structure Compiles (order : IdOrder) (ctx : Context) (texts : List (String × Parse))
    (roots : List ExecNode) (entries : List IRFunction) : Prop where
  built : ∃ nodes, ((buildAll texts).run ⟨{}, none⟩).1 = .ok nodes ∧ useNodes nodes = .ok roots
  compiled : ∃ groups nodes, (group order roots).run' {} = some groups ∧
    validateBatch ctx.functionRegistry groups = .ok nodes ∧
    List.Forall₂ (IsEntry ctx) nodes entries

variable {V W E : Type}

/-- `ExecuteAll`: the entry functions one after the other, also after an error in the context, which
is not part of the world.  A trap ends the process. -/
inductive ExecuteAll (sem : Ssa.Semantics Opcode Literal V W E) :
    List IRFunction → W → Except E W → Prop
  | nil {w} : ExecuteAll sem [] w (.ok w)
  | returned {F entries w v w' r}
      (h : Ssa.Steps sem F (.at 0 0 (fun _ => none) w) (.returned v w'))
      (hrest : ExecuteAll sem entries w' r) : ExecuteAll sem (F :: entries) w r
  | trapped {F entries w e} (h : Ssa.Steps sem F (.at 0 0 (fun _ => none) w) (.trapped e)) :
      ExecuteAll sem (F :: entries) w (.error e)

/-- A pipeline by itself, if it is accepted. -/
def runPipeline (ctx : Context) (sem : Ssa.Semantics Opcode Literal V W E) (root : ExecNode) :
    Checked.M W E Unit :=
  match validate ctx.functionRegistry root with
  | .ok (node, _) => runAlone ctx sem node
  | .error _ => pure ()

/-- What a sequence of pipelines leaves. -/
def worldAfter (m : Checked.M W E Unit) (w : W) : Except E W := (m.run w).map Prod.snd

/-! ## 2. A run of the entry functions -/

section Runs

variable {ctx : Context} {sem : Ssa.Semantics Opcode Literal V W E}

/-- The function does what `m` does. -/
def Does (sem : Ssa.Semantics Opcode Literal V W E) (F : IRFunction) (m : Checked.M W E Unit) :
    Prop :=
  ∀ w, Ssa.Simulates sem F (.at 0 0 (fun _ => none) w) m w fun _ w' c => c = .returned none w'

/-- There is one run of the entry functions. -/
theorem executeAll_iff {γ : Type} {run : γ → Checked.M W E Unit} {groups : List γ}
    {entries : List IRFunction}
    (h : List.Forall₂ (fun g F => Does sem F (run g)) groups entries) {w : W} {r : Except E W} :
    ExecuteAll sem entries w r ↔ r = worldAfter (forM groups run) w := by
  induction h generalizing w r with
  | nil =>
    constructor
    · rintro ⟨⟩
      rfl
    · rintro rfl
      exact .nil
  | @cons g F groups entries hF _ ih =>
    have hdoes := hF w
    unfold Ssa.Simulates at hdoes
    rw [worldAfter, List.forM_cons, StateT.run_bind]
    cases hrun : (run g).run w with
    | error e =>
      rw [hrun] at hdoes
      constructor
      · rintro (_ | ⟨h, -⟩ | h)
        · cases h.unique hdoes rfl rfl
        · cases h.unique hdoes rfl rfl
          rfl
      · rintro rfl
        exact .trapped hdoes
    | ok p =>
      rw [hrun] at hdoes
      obtain ⟨c, hsteps, rfl⟩ := hdoes
      constructor
      · rintro (_ | ⟨h, hr⟩ | h)
        · cases h.unique hsteps rfl rfl
          exact ih.mp hr
        · cases h.unique hsteps rfl rfl
      · intro hr
        exact .returned hsteps (ih.mpr hr)

/-- The groups are validated one by one, and each like its pipelines alone. -/
theorem validateBatch_isolated {reg : FunctionRegistry} {groups : List (List ExecNode)}
    {nodes : List ExecNode} (h : validateBatch reg (groups.map isolatedNoOP) = .ok nodes) :
    List.Forall₂ (fun g node => ∃ as, validateEach reg g = .ok as ∧ node = isolatedVoid as)
      groups nodes := by
  induction groups generalizing nodes with
  | nil =>
    cases h
    exact .nil
  | cons g groups ih =>
    obtain ⟨st, hrun⟩ := validateBatch_eq_ok.mp h
    obtain ⟨node, st₁, nodes, hg, hrest, rfl⟩ := visitAll_cons_eq_ok.mp hrun
    have hval : validate reg (isolatedNoOP g) = .ok (node, st₁) := (visit_run_eq_ok _).mpr hg
    rw [validate_isolatedNoOP] at hval
    cases has : validateEach reg g with
    | error e =>
      rw [has] at hval
      cases hval
    | ok as =>
      rw [has] at hval
      cases hval
      exact .cons ⟨as, has, rfl⟩ (ih (validateBatch_eq_ok.mpr ⟨st, hrest⟩))

theorem validateEach_accepted {reg : FunctionRegistry} {roots nodes : List ExecNode}
    (h : validateEach reg roots = .ok nodes) : ∀ root ∈ roots, ∃ r, validate reg root = .ok r := by
  intro root hroot
  obtain ⟨node, -, st, hvisits⟩ := forall₂_exists_left (validateEach_eq_ok.mp h).flip root hroot
  exact ⟨(node, st), (visit_run_eq_ok root).mpr hvisits⟩

/-- Accepted roots, as the annotated ones. -/
theorem forM_runPipeline {roots nodes : List ExecNode}
    (h : validateEach ctx.functionRegistry roots = .ok nodes) :
    forM roots (runPipeline ctx sem) = forM nodes (runAlone ctx sem) := by
  induction validateEach_eq_ok.mp h with
  | nil => rfl
  | @cons root node roots nodes hroot hrest ih =>
    obtain ⟨st, hvisits⟩ := hroot
    have hval : validate ctx.functionRegistry root = .ok (node, st) :=
      (visit_run_eq_ok root).mpr hvisits
    rw [List.forM_cons, List.forM_cons, ih (validateEach_eq_ok.mpr hrest), runPipeline, hval]

/-- The entry function of a group runs the pipelines of the group. -/
theorem IsEntry.does (hbits : BitSemantics sem) {g nodes : List ExecNode} {F : IRFunction}
    (hplain : ∀ root ∈ g, ∀ l ∈ root.lists, IsPlain l)
    (hnodes : validateEach ctx.functionRegistry g = .ok nodes)
    (hF : IsEntry ctx (isolatedVoid nodes) F) : Does sem F (forM g (runPipeline ctx sem)) := by
  obtain ⟨s', hrun, rfl, hverified⟩ := hF
  intro w
  rw [forM_runPipeline hnodes]
  exact isolatedVoid_runs hbits (validateEach_plain hnodes hplain) hrun hverified w

/-- `ExecuteAll` on the groups. -/
theorem execute_groups (hbits : BitSemantics sem) {groups : List (List ExecNode)}
    (hplain : ∀ g ∈ groups, ∀ root ∈ g, ∀ l ∈ root.lists, IsPlain l) {nodes : List ExecNode}
    {entries : List IRFunction}
    (hnodes : validateBatch ctx.functionRegistry (groups.map isolatedNoOP) = .ok nodes)
    (hentries : List.Forall₂ (IsEntry ctx) nodes entries) :
    (∀ root ∈ groups.flatten, ∃ r, validate ctx.functionRegistry root = .ok r) ∧
      ∀ {w r}, ExecuteAll sem entries w r ↔
        r = worldAfter (forM groups.flatten (runPipeline ctx sem)) w := by
  have hall := validateBatch_isolated hnodes
  have hdoes : List.Forall₂ (fun g F => Does sem F (forM g (runPipeline ctx sem)) ∧
      ∀ root ∈ g, ∃ r, validate ctx.functionRegistry root = .ok r) groups entries := by
    clear hnodes
    induction hall generalizing entries with
    | nil =>
      cases hentries
      exact .nil
    | cons hg _ ih =>
      cases hentries with
      | cons hF hrest =>
        obtain ⟨as, has, rfl⟩ := hg
        have hdoes := hF.does hbits (hplain _ List.mem_cons_self) has
        refine .cons ⟨hdoes, validateEach_accepted has⟩ ?_
        exact ih (fun g hg => hplain g (List.mem_cons_of_mem _ hg)) hrest
  constructor
  · intro root hroot
    obtain ⟨g, hg, hmem⟩ := List.mem_flatten.mp hroot
    obtain ⟨F, -, h⟩ := forall₂_exists_left hdoes.flip g hg
    exact h.2 root hmem
  · intro w r
    rw [executeAll_iff (hdoes.imp fun _ _ h => h.1), Reorder.forM_flatten]

end Runs

/-! ## 3. The order -/

section Order

variable {ctx : Context} {sem : Ssa.Semantics Opcode Literal V W E} {order : IdOrder}
  {texts : List (String × Parse)} {roots : List ExecNode} {entries : List IRFunction}

/-- Of two elements of a list without duplicates one comes first. -/
theorem nodup_sublist_asymm {α : Type} {x y : α} {l : List α} (hnodup : l.Nodup)
    (hxy : [x, y].Sublist l) : ¬ [y, x].Sublist l := by
  intro hyx
  induction l with
  | nil => cases hxy
  | cons a l ih =>
    obtain ⟨ha, hl⟩ := List.nodup_cons.mp hnodup
    rcases List.sublist_cons_iff.mp hxy with hxy' | ⟨r, hr, hy⟩
    · rcases List.sublist_cons_iff.mp hyx with hyx' | ⟨r, hr, -⟩
      · exact ih hl hxy' hyx'
      · obtain ⟨rfl, -⟩ := List.cons.inj hr
        exact ha (hxy'.subset (List.mem_cons_of_mem _ List.mem_cons_self))
    · obtain ⟨rfl, rfl⟩ := List.cons.inj hr
      rcases List.sublist_cons_iff.mp hyx with hyx' | ⟨r, hr, -⟩
      · exact ha (hyx'.subset (List.mem_cons_of_mem _ List.mem_cons_self))
      · obtain ⟨rfl, -⟩ := List.cons.inj hr
        exact ha (List.singleton_sublist.mp hy)

/-- The smaller of two elements of a sorted list comes first. -/
theorem sublist_of_lt {n : Nat} {g : List (Fin n)} (hsorted : g.Pairwise (· < ·)) {i j : Fin n}
    (hi : i ∈ g) (hj : j ∈ g) (hlt : j < i) : [j, i].Sublist g := by
  obtain ⟨p, q, rfl⟩ := List.append_of_mem hj
  obtain ⟨-, hq, hpq⟩ := List.pairwise_append.mp hsorted
  rcases List.mem_append.mp hi with hi | hi
  · exact absurd (hpq i hi j List.mem_cons_self) (not_lt_of_gt hlt)
  · rcases List.mem_cons.mp hi with rfl | hi
    · exact absurd hlt (lt_irrefl _)
    · exact ((List.singleton_sublist.mpr hi).cons_cons j).trans (List.sublist_append_right p _)

/-- Two pipelines that the groups run in the other order than the list are not in one group. -/
theorem not_together {n : Nat} {groups : List (List (Fin n))} (hnodup : groups.flatten.Nodup)
    (hsorted : ∀ g ∈ groups, g.Pairwise (· < ·)) {i j : Fin n}
    (hij : [i, j].Sublist groups.flatten) (hji : [j, i].Sublist (List.finRange n)) :
    ¬ ∃ g ∈ groups, i ∈ g ∧ j ∈ g := by
  have hlt : j < i := by
    have h := (List.pairwise_lt_finRange n).sublist hji
    exact (List.pairwise_cons.mp h).1 i (List.mem_singleton.mpr rfl)
  rintro ⟨g, hg, hi, hj⟩
  have hsub := (sublist_of_lt (hsorted g hg) hi hj hlt).trans (List.sublist_flatten_of_mem hg)
  exact nodup_sublist_asymm hnodup hij hsub

/-- **The order of the pipelines.**  `Execute` runs the pipelines of the list, each once and alone:
in the order of the groups, and within a group in that of the list.  If pipelines of different
groups can change places then it leaves what they leave in the order of the list. -/
theorem execute_order (hbits : BitSemantics sem)
    (hplain : ∀ root ∈ roots, ∀ l ∈ root.lists, IsPlain l)
    (hcompiles : Compiles order ctx texts roots entries) :
    (∀ root ∈ roots, ∃ r, validate ctx.functionRegistry root = .ok r) ∧
    ∃ groups : List (List (Fin roots.length)),
      (group order roots).run' {} = some (groups.map fun g => isolatedNoOP (g.map roots.get)) ∧
      groups.flatten.Perm (List.finRange roots.length) ∧ (∀ g ∈ groups, g.Pairwise (· < ·)) ∧
      (∀ w r, ExecuteAll sem entries w r ↔
        r = worldAfter (forM groups.flatten fun i => runPipeline ctx sem (roots.get i)) w) ∧
      ((∀ i j, (¬ ∃ g ∈ groups, i ∈ g ∧ j ∈ g) → Reorder.Commutes
          (runPipeline ctx sem (roots.get i)) (runPipeline ctx sem (roots.get j))) →
        ∀ w r, ExecuteAll sem entries w r ↔
          r = worldAfter (forM roots (runPipeline ctx sem)) w) := by
  obtain ⟨-, groups', nodes, hgroup, hnodes, hentries⟩ := hcompiles
  obtain ⟨d, label, labels, s, -, -, hnodup, hlabels, hrun⟩ := group_run order roots
  have hall : ∀ i : Fin roots.length, label (stringHash (rootName i)) ∈ labels :=
    fun i => (hlabels _).mpr ⟨i, rfl⟩
  have hperm := fibers_flatten hnodup hall
  generalize hgroups : fibers (fun i : Fin roots.length => label (stringHash (rootName i))) labels =
    groups at hrun hperm
  have hsorted : ∀ g ∈ groups, g.Pairwise (· < ·) := by
    rw [← hgroups]
    exact fun g => fibers_sorted
  have hgroup' : (group order roots).run' {} =
      some (groups.map fun g => isolatedNoOP (g.map roots.get)) :=
    congrArg (Option.map Prod.fst) hrun
  have hsame : groups' = (groups.map fun g => g.map roots.get).map isolatedNoOP := by
    rw [hgroup] at hgroup'
    rw [List.map_map]
    exact Option.some.inj hgroup'
  subst hsame
  have hflat : (groups.map fun g => g.map roots.get).flatten = groups.flatten.map roots.get := by
    rw [List.map_flatten]
  have hmem : ∀ root, root ∈ groups.flatten.map roots.get ↔ root ∈ roots := by
    intro root
    rw [(hperm.map roots.get).mem_iff, List.map_get_finRange]
  have hplain' : ∀ g ∈ groups.map fun g => g.map roots.get, ∀ root ∈ g,
      ∀ l ∈ root.lists, IsPlain l :=
    fun g hg root hroot =>
      hplain root ((hmem root).mp (hflat ▸ List.mem_flatten.mpr ⟨g, hg, hroot⟩))
  obtain ⟨haccepted, hexec⟩ := execute_groups hbits hplain' hnodes hentries
  rw [hflat] at haccepted hexec
  refine ⟨fun root hroot => haccepted root ((hmem root).mpr hroot), groups, hgroup', hperm, hsorted,
    fun w r => ?_, fun hcommutes w r => ?_⟩
  · rw [hexec, List.forM_map]
  · rw [hexec, List.forM_map]
    have hreorder := Reorder.forM_reorder (f := fun i => runPipeline ctx sem (roots.get i)) hperm
      fun i j hij hji => hcommutes i j (not_together (hperm.nodup_iff.mpr (List.nodup_finRange _))
        hsorted hij hji)
    rw [hreorder]
    have hroots : forM (List.finRange roots.length) (fun i => runPipeline ctx sem (roots.get i)) =
        forM roots (runPipeline ctx sem) := by
      rw [← List.forM_map, List.map_get_finRange]
    rw [hroots]

end Order

/-! ## 4. Two stores to one slot -/

/-- A registry with one C function, `store(ptr, i32) -> void`. -/
def storeContext : Context where
  functionRegistry :=
    FunctionRegistry.assign {} ⟨"store", [.kPtr, .kI32], .kVoid⟩
      { funcType := .kCFunc, cFuncPtr := 1 }
  callback _ _ _ _ := none
  hashOrder := .dedup

/-- The world is the slot, and a call stores its second argument. -/
def slotMachine : Ssa.Semantics Opcode Literal Int Int Empty where
  const
    | .value (.i32 x) => x.toInt
    | .value (.u8 x) => x.toNat
    | .bool b => if b then 1 else 0
    | _ => 0
  arg _ := 0
  op
    | .call _ _, [_, x] => do
      set x
      return 0
    | .zext _, [x] => return x
    | _, _ => return 0
  truthy x := x ≠ 0

theorem slotMachine_bits : BitSemantics slotMachine where
  icmp_ne _ _ _ h := ⟨false, congrArg Prod.fst (Except.ok.inj h).symm⟩
  fcmp_one _ _ _ h := ⟨false, congrArg Prod.fst (Except.ok.inj h).symm⟩
  truthy b := by cases b <;> rfl
  zext b _ := by cases b <;> rfl

/-- The world is a counter, and a call adds its second argument. -/
def counterMachine : Ssa.Semantics Opcode Literal Int Int Empty where
  const := slotMachine.const
  arg := slotMachine.arg
  op
    | .call _ _, [_, x] => do
      modify (· + x)
      return 0
    | o, xs => slotMachine.op o xs
  truthy := slotMachine.truthy

theorem counterMachine_bits : BitSemantics counterMachine where
  icmp_ne xs _ _ h := slotMachine_bits.icmp_ne xs _ _ h
  fcmp_one xs _ _ h := slotMachine_bits.fcmp_one xs _ _ h
  truthy := slotMachine_bits.truthy
  zext := slotMachine_bits.zext

/-- `code` is the text `store(output, x);`. -/
def storeText (code : String) (x : BitVec 32) : String × Parse :=
  (code,
    { program :=
        { statements := [.expr (.call {} "store" [.output {}, .literal {} (.i32 x)])]
          nonempty := List.cons_ne_nil _ _ } })

def storeTexts : List (String × Parse) :=
  [storeText "store(output, 1);" 1, storeText "store(output, 2);" 2]

set_option maxRecDepth 4000 in
/-- They have no text in common, and the map may list the second group first. -/
theorem storeTexts_compile : ∃ roots entries,
    Compiles listedOrder storeContext storeTexts roots entries ∧
      (∀ root ∈ roots, ∀ l ∈ root.lists, IsPlain l) ∧
      worldAfter (forM roots (runPipeline storeContext slotMachine)) 0 = .ok 2 ∧
      ExecuteAll slotMachine entries 0 (.ok 1) ∧
      ∀ root ∈ roots, ∃ x : Int,
        runPipeline storeContext counterMachine root = modify (· + x) := by
  have hentry : ∀ {node s'}, (buildEntryFunction storeContext node).run entryState = .ok ((), s') →
      node.whensFine = true → IsEntry storeContext node s'.builder.blocks :=
    fun hrun hfine => ⟨_, hrun, rfl, entry_verified hrun hfine⟩
  refine ⟨_, _, ⟨⟨_, rfl, rfl⟩, _, _, rfl, rfl,
    .cons (hentry rfl rfl) (.cons (hentry rfl rfl) .nil)⟩, ?_, rfl, ?_, ?_⟩
  · intro root hroot l hl
    rcases List.mem_cons.mp hroot with rfl | hroot
    · exact nomatch hl
    · rw [List.mem_singleton.mp hroot] at hl
      exact nomatch hl
  · exact .returned (.head rfl (.single rfl)) (.returned (.head rfl (.single rfl)) .nil)
  · intro root hroot
    rcases List.mem_cons.mp hroot with rfl | hroot
    · exact ⟨1, rfl⟩
    · rw [List.mem_singleton.mp hroot]
      exact ⟨2, rfl⟩

/-- The slot has what the last group stores; the counter does not depend on the order. -/
theorem storeTexts_executed : ∃ roots entries,
    Compiles listedOrder storeContext storeTexts roots entries ∧
    (∃ groups : List (List (Fin roots.length)), groups.flatten.Perm (List.finRange roots.length) ∧
      ∀ w r, ExecuteAll slotMachine entries w r ↔ r = worldAfter
        (forM groups.flatten fun i => runPipeline storeContext slotMachine (roots.get i)) w) ∧
    ∀ w r, ExecuteAll counterMachine entries w r ↔
      r = worldAfter (forM roots (runPipeline storeContext counterMachine)) w := by
  obtain ⟨roots, entries, hcompiles, hplain, -, -, hadds⟩ := storeTexts_compile
  obtain ⟨-, groups, -, hperm, -, hexec, -⟩ := execute_order slotMachine_bits hplain hcompiles
  refine ⟨roots, entries, hcompiles, ⟨groups, hperm, hexec⟩, ?_⟩
  obtain ⟨-, _, -, -, -, -, hcommuting⟩ := execute_order counterMachine_bits hplain hcompiles
  refine hcommuting fun i j _ => ?_
  obtain ⟨x, hx⟩ := hadds _ (roots.get_mem i)
  obtain ⟨y, hy⟩ := hadds _ (roots.get_mem j)
  rw [hx, hy]
  funext w
  exact congrArg (fun z => Except.ok ((), z)) (add_right_comm w x y)

/-- **The later store is lost.** -/
theorem storeTexts_reordered : ¬ ∀ order roots entries w r,
    Compiles order storeContext storeTexts roots entries → ExecuteAll slotMachine entries w r →
      r = worldAfter (forM roots (runPipeline storeContext slotMachine)) w := by
  intro h
  obtain ⟨roots, entries, hcompiles, -, hlisted, hexec, -⟩ := storeTexts_compile
  have hone := h _ _ _ _ _ hcompiles hexec
  rw [hlisted] at hone
  cases hone

end Athena

end JitFusion
