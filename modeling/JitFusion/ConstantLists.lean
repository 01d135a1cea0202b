/-
# Constant lists in the module

What `CodeGen::Visit(ConstantListValueNode &)` puts in the module (`src/codegen/`): private globals
for the elements, and a `{pointer, length}` constant that refers to them.  `CodeGen.visit` takes
that constant for a literal; `visit_refines` says which literal.

The constants are kept in `const_list_cache`, a `std::map` whose keys are the lists.  Its order is
`<` of the elements, in which the two zeros are equivalent and a NaN is equivalent to everything.
With NaNs it is no order, and the map may miss a key that is equivalent (`CacheMap`).
`constList_transparent_iff` is what follows: the cache is sure to be transparent in a run exactly
if no two different lists of the run are equivalent, and where there is no NaN it is transparent
exactly then.
-/
import Mathlib.Algebra.Ring.Nat
import JitFusion.CodeGen
import JitFusion.Lib.Run

namespace JitFusion

namespace CodeGen

namespace ConstList

/-! ## 1. Globals -/

/-- A `{pointer, length}` constant: a null pointer, or the first element of a private global. -/
structure PtrLen where
  structType : LLVMType
  data : Option Nat
  len : Nat
  deriving DecidableEq, Repr

/-- What a private global is initialised with. -/
inductive Initializer
  /-- `jf.arr`, the numbers. -/
  | array (elements : ConstantListValueType)
  /-- `jf.str`, the bytes of a string. -/
  | bytes (s : Bytes)
  /-- `jf.strlist`, the strings. -/
  | structs (elems : List PtrLen)
  deriving DecidableEq, Repr

/-- `BuildPtrLenStructConstant` of `static_cast<uint32_t>(len)`. -/
def buildPtrLenStructConstant (structType : LLVMType) (data : Option Nat) (len : Nat) : PtrLen :=
  ⟨structType, data, len % 2 ^ 32⟩

def listLength : ConstantListValueType → Nat
  | .i8 l | .u8 l => l.length
  | .i16 l | .u16 l => l.length
  | .i32 l | .u32 l | .f32 l => l.length
  | .i64 l | .u64 l | .f64 l => l.length
  | .string l => l.length

/-- The globals of the module, `const_string_cache` and `const_list_cache`. -/
structure Emitter where
  globals : List Initializer := []
  constStringCache : List (Bytes × Nat) := []
  constListCache : List (ConstantListValueType × PtrLen) := []
  deriving DecidableEq, Repr

namespace Emitter

def createPrivateGlobal (m : Emitter) (init : Initializer) : Emitter :=
  { m with globals := m.globals ++ [init] }

/-- `EmitStringPayloadGlobal`. -/
def emitStringPayloadGlobal (m : Emitter) (s : Bytes) : Option Nat × Emitter :=
  if s = [] then (none, m)
  else
    match m.constStringCache.find? fun e => e.1 == s with
    | some e => (some e.2, m)
    | none =>
      (some m.globals.length,
        { m.createPrivateGlobal (.bytes s) with
          constStringCache := m.constStringCache ++ [(s, m.globals.length)] })

/-- `EmitTypedArrayGlobal`. -/
def emitTypedArrayGlobal (m : Emitter) (l : ConstantListValueType) : Option Nat × Emitter :=
  if listLength l = 0 then (none, m)
  else (some m.globals.length, m.createPrivateGlobal (.array l))

/-- The loop over the strings of a list. -/
def emitStrings (m : Emitter) : List Bytes → List PtrLen × Emitter
  | [] => ([], m)
  | s :: list =>
    let payload := m.emitStringPayloadGlobal s
    let rest := payload.2.emitStrings list
    (buildPtrLenStructConstant (.struct .string_type) payload.1 s.length :: rest.1, rest.2)

/-- `CreateNumberList`. -/
def createNumberList (m : Emitter) (l : ConstantListValueType) : PtrLen × Emitter :=
  let data := m.emitTypedArrayGlobal l
  (buildPtrLenStructConstant (Literal.list l).type data.1 (listLength l), data.2)

/-- `MakeListVisitor`. -/
def makeList (m : Emitter) : ConstantListValueType → PtrLen × Emitter
  | .string list =>
    if list = [] then (buildPtrLenStructConstant (.struct .stringlist_type) none 0, m)
    else
      let elems := m.emitStrings list
      (buildPtrLenStructConstant (.struct .stringlist_type) (some elems.2.globals.length)
        list.length, elems.2.createPrivateGlobal (.structs elems.1))
  | l => m.createNumberList l

end Emitter

/-- A NaN is among the elements. -/
def hasNaN : ConstantListValueType → Bool
  | .f32 l => l.any isNaN32
  | .f64 l => l.any isNaN64
  | _ => false

/-- `find` and `operator[]` of a `std::map` with these keys, on its entries as they were inserted.

What `find` gives has an equivalent key, and an assignment concerns one entry, new or with an
equivalent key.  That an equivalent key is found, and that there is a new entry if there is none,
is promised for an order only, which `<` is on lists without NaNs. -/
structure CacheMap where
  find : List (ConstantListValueType × PtrLen) → ConstantListValueType →
    Option (ConstantListValueType × PtrLen)
  assign : List (ConstantListValueType × PtrLen) → ConstantListValueType → PtrLen →
    List (ConstantListValueType × PtrLen)
  found : ∀ {c l e}, find c l = some e → e ∈ c ∧ constListEquivalent e.1 l = true
  assigned : ∀ {c l v e}, e ∈ assign c l v → e ∈ c ∨ e.2 = v ∧
    (e.1 = l ∨ constListEquivalent e.1 l = true ∧ ∃ k ∈ c, k.1 = e.1)
  ordered : ∀ {c l}, hasNaN l = false → (∀ e ∈ c, hasNaN e.1 = false) → find c l = none →
    (∀ e ∈ c, constListEquivalent e.1 l = false) ∧ ∀ v, assign c l v = c ++ [(l, v)]

/-- The first equivalent entry, and a new one if there is none. -/
def CacheMap.first : CacheMap where
  find c l := c.find? fun e => constListEquivalent e.1 l
  assign c l v := c ++ [(l, v)]
  found := by
    intro c l e h
    have hkey : constListEquivalent e.1 l = true :=
      List.find?_some (p := fun e : ConstantListValueType × PtrLen => constListEquivalent e.1 l) h
    exact ⟨List.mem_of_find?_eq_some h, hkey⟩
  assigned := by
    intro c l v e he
    rcases List.mem_append.mp he with he | he
    · exact .inl he
    · rw [List.mem_singleton.mp he]
      exact .inr ⟨rfl, .inl rfl⟩
  ordered _ _ h :=
    ⟨fun e he => Bool.eq_false_iff.mpr (List.find?_eq_none.mp h e he), fun _ => rfl⟩

/-- `CodeGen::Visit(ConstantListValueNode &)`. -/
def Emitter.visitList (map : CacheMap) (m : Emitter) (valList : ConstantListValueType) :
    PtrLen × Emitter :=
  match map.find m.constListCache valList with
  | some e => (e.2, m)
  | none =>
    let value := m.makeList valList
    (value.1, { value.2 with
      constListCache := map.assign value.2.constListCache valList value.1 })

/-- A visit that puts something in the module. -/
inductive Visit
  | list (valList : ConstantListValueType)
  /-- `EmitStringPayloadGlobal` for a string literal. -/
  | string (s : Bytes)
  /-- Any other global. -/
  | other (init : Initializer)

def Emitter.visit (map : CacheMap) (m : Emitter) : Visit → Emitter
  | .list valList => (m.visitList map valList).2
  | .string s => (m.emitStringPayloadGlobal s).2
  | .other init => m.createPrivateGlobal init

/-! ## 2. The payload of a constant -/

def StringPayload (globals : List Initializer) (s : Bytes) : Option Nat → Prop
  | none => s = []
  | some gv => globals[gv]? = some (.bytes s)

/-- The constant is the string. -/
structure HoldsString (globals : List Initializer) (c : PtrLen) (s : Bytes) : Prop where
  len : c.len = s.length % 2 ^ 32
  payload : StringPayload globals s c.data

/-- What the pointer points at is the list, bit for bit. -/
def Payload (globals : List Initializer) : ConstantListValueType → Option Nat → Prop
  | l, none => listLength l = 0
  | .string list, some gv =>
    ∃ elems, globals[gv]? = some (.structs elems) ∧ List.Forall₂ (HoldsString globals) elems list
  | l, some gv => globals[gv]? = some (.array l)

/-- The constant is the list. -/
structure Holds (globals : List Initializer) (c : PtrLen) (l : ConstantListValueType) : Prop where
  structType : c.structType = (Literal.list l).type
  len : c.len = listLength l % 2 ^ 32
  payload : Payload globals l c.data

section Payload

variable {globals globals' : List Initializer} {c : PtrLen}

theorem getElem?_of_prefix {gv : Nat} {init : Initializer} (h : globals[gv]? = some init)
    (hp : globals <+: globals') : globals'[gv]? = some init := by
  obtain ⟨rest, rfl⟩ := hp
  obtain ⟨hlt, -⟩ := List.getElem?_eq_some_iff.mp h
  rw [List.getElem?_append_left hlt, h]

theorem HoldsString.grow {s : Bytes} (h : HoldsString globals c s) (hp : globals <+: globals') :
    HoldsString globals' c s := by
  refine ⟨h.len, ?_⟩
  have hpay := h.payload
  cases hd : c.data with
  | none =>
    rw [hd] at hpay
    exact hpay
  | some gv =>
    rw [hd] at hpay
    exact getElem?_of_prefix hpay hp

/-- Globals are added and stay as they are. -/
theorem Holds.grow {l : ConstantListValueType} (h : Holds globals c l) (hp : globals <+: globals') :
    Holds globals' c l := by
  refine ⟨h.structType, h.len, ?_⟩
  have hpay := h.payload
  cases hd : c.data with
  | none =>
    rw [hd] at hpay
    exact hpay
  | some gv =>
    rw [hd] at hpay
    cases l with
    | string list =>
      obtain ⟨elems, helems, hall⟩ := hpay
      exact ⟨elems, getElem?_of_prefix helems hp, hall.imp fun _ _ he => he.grow hp⟩
    | _ => exact getElem?_of_prefix hpay hp

/-- **Equivalent lists of one constant are the same.** -/
theorem Holds.inj {k l : ConstantListValueType} (hk : Holds globals c k) (hl : Holds globals c l)
    (h : constListEquivalent k l = true) : k = l := by
  have hpk := hk.payload
  have hpl := hl.payload
  cases hd : c.data with
  | some gv =>
    rw [hd] at hpk hpl
    cases k <;> cases l <;> simp_all [constListEquivalent, Payload]
  | none =>
    rw [hd] at hpk hpl
    cases k <;> cases l <;> simp_all [constListEquivalent, Payload, listLength]

end Payload

/-! ## 3. What the visitor emits -/

/-- Each cached payload is that of its string. -/
def StringsSound (m : Emitter) : Prop :=
  ∀ e ∈ m.constStringCache, m.globals[e.2]? = some (.bytes e.1)

/-- From `m` to `m'` globals were added, for strings and lists that are not in the list cache. -/
structure Emits (m m' : Emitter) : Prop where
  globals : m.globals <+: m'.globals
  strings : StringsSound m'
  lists : m'.constListCache = m.constListCache

section Emission

variable {m m' m'' : Emitter}

theorem Emits.refl (h : StringsSound m) : Emits m m := ⟨List.prefix_rfl, h, rfl⟩

theorem Emits.trans (h : Emits m m') (h' : Emits m' m'') : Emits m m'' :=
  ⟨h.globals.trans h'.globals, h'.strings, h'.lists.trans h.lists⟩

theorem emits_global (h : StringsSound m) (init : Initializer) :
    Emits m (m.createPrivateGlobal init) :=
  ⟨List.prefix_append _ _, fun e he => getElem?_of_prefix (h e he) (List.prefix_append _ _), rfl⟩

theorem getElem?_global (m : Emitter) (init : Initializer) :
    (m.createPrivateGlobal init).globals[m.globals.length]? = some init :=
  List.getElem?_concat_length

theorem emits_string (h : StringsSound m) (s : Bytes) :
    Emits m (m.emitStringPayloadGlobal s).2 ∧
      ∀ type, HoldsString (m.emitStringPayloadGlobal s).2.globals
        (buildPtrLenStructConstant type (m.emitStringPayloadGlobal s).1 s.length) s := by
  rw [Emitter.emitStringPayloadGlobal]
  by_cases hs : s = []
  · rw [if_pos hs]
    exact ⟨.refl h, fun _ => ⟨rfl, hs⟩⟩
  · rw [if_neg hs]
    cases hfind : m.constStringCache.find? fun e => e.1 == s with
    | some e =>
      have hkey : e.1 = s :=
        eq_of_beq (List.find?_some (p := fun e : Bytes × Nat => e.1 == s) hfind)
      have hpay := h e (List.mem_of_find?_eq_some hfind)
      rw [hkey] at hpay
      exact ⟨.refl h, fun _ => ⟨rfl, hpay⟩⟩
    | none =>
      have hglobal := getElem?_global m (.bytes s)
      refine ⟨⟨List.prefix_append _ _, fun e he => ?_, rfl⟩, fun _ => ⟨rfl, hglobal⟩⟩
      rcases List.mem_append.mp he with he | he
      · exact (emits_global h _).strings e he
      · rw [List.mem_singleton.mp he]
        exact hglobal

theorem emits_strings {m : Emitter} (list : List Bytes) (h : StringsSound m) :
    Emits m (m.emitStrings list).2 ∧
      List.Forall₂ (HoldsString (m.emitStrings list).2.globals) (m.emitStrings list).1 list := by
  induction list generalizing m with
  | nil => exact ⟨.refl h, .nil⟩
  | cons s list ih =>
    obtain ⟨hs, hholds⟩ := emits_string h s
    obtain ⟨hrest, hall⟩ := ih hs.strings
    exact ⟨hs.trans hrest, .cons ((hholds _).grow hrest.globals) hall⟩

theorem emits_numberList (h : StringsSound m) (l : ConstantListValueType)
    (hl : ∀ list, l ≠ .string list) :
    Emits m (m.createNumberList l).2 ∧
      Holds (m.createNumberList l).2.globals (m.createNumberList l).1 l := by
  rw [Emitter.createNumberList, Emitter.emitTypedArrayGlobal]
  by_cases hlen : listLength l = 0
  · rw [if_pos hlen]
    exact ⟨.refl h, rfl, rfl, hlen⟩
  · rw [if_neg hlen]
    have hglobal := getElem?_global m (.array l)
    refine ⟨emits_global h _, rfl, rfl, ?_⟩
    cases l with
    | string list => exact absurd rfl (hl list)
    | _ => exact hglobal

/-- **The visitor makes a constant that is the list.** -/
theorem emits_makeList (h : StringsSound m) (l : ConstantListValueType) :
    Emits m (m.makeList l).2 ∧ Holds (m.makeList l).2.globals (m.makeList l).1 l := by
  cases l with
  | string list =>
    rw [Emitter.makeList]
    by_cases hl : list = []
    · rw [if_pos hl, hl]
      exact ⟨.refl h, rfl, rfl, rfl⟩
    · rw [if_neg hl]
      obtain ⟨hs, hall⟩ := emits_strings list h
      have hglobal := emits_global hs.strings (.structs (m.emitStrings list).1)
      refine ⟨hs.trans hglobal, rfl, rfl, _, getElem?_global _ _, ?_⟩
      exact hall.imp fun _ _ he => he.grow hglobal.globals
  | _ => exact emits_numberList h _ (by rintro _ ⟨⟩)

end Emission

/-! ## 4. A visit -/

section Cache

variable {map : CacheMap} {m m' : Emitter} {l : ConstantListValueType}

variable (map) in
/-- What a visit gives, and what it leaves in the cache. -/
theorem visitList_cases (h : StringsSound m) (l : ConstantListValueType) :
    (∃ e ∈ m.constListCache, constListEquivalent e.1 l = true ∧ m.visitList map l = (e.2, m)) ∨
    (map.find m.constListCache l = none ∧ m.globals <+: (m.visitList map l).2.globals ∧
      StringsSound (m.visitList map l).2 ∧
      Holds (m.visitList map l).2.globals (m.visitList map l).1 l ∧
      (m.visitList map l).2.constListCache =
        map.assign m.constListCache l (m.visitList map l).1) := by
  rw [Emitter.visitList]
  cases hfind : map.find m.constListCache l with
  | some e =>
    obtain ⟨hmem, hkey⟩ := map.found hfind
    exact .inl ⟨e, hmem, hkey, rfl⟩
  | none =>
    obtain ⟨hemits, hholds⟩ := emits_makeList h l
    refine .inr ⟨rfl, hemits.globals, hemits.strings, hholds, ?_⟩
    exact congrArg (map.assign · l _) hemits.lists

/-- A visit of something else leaves the list cache alone. -/
theorem emits_visit (h : StringsSound m) {v : Visit} (hv : ∀ l, v ≠ .list l) :
    Emits m (m.visit map v) := by
  cases v with
  | list l => exact absurd rfl (hv l)
  | string s => exact (emits_string h s).1
  | other init => exact emits_global h init

theorem StringsSound.visit (h : StringsSound m) (v : Visit) : StringsSound (m.visit map v) := by
  cases v with
  | list l =>
    rcases visitList_cases map h l with ⟨e, -, -, heq⟩ | ⟨-, -, hstrings, -⟩
    · rw [Emitter.visit, heq]
      exact h
    · exact hstrings
  | string s => exact (emits_visit h fun _ => by simp).strings
  | other init => exact (emits_visit h fun _ => by simp).strings

/-- An entry after a visit: its key was there, or is the list visited. -/
theorem key_of_mem_visit (h : StringsSound m) {v : Visit} {e : ConstantListValueType × PtrLen}
    (he : e ∈ (m.visit map v).constListCache) :
    (∃ k ∈ m.constListCache, k.1 = e.1) ∨ v = .list e.1 := by
  have hkeep : e ∈ m.constListCache → ∃ k ∈ m.constListCache, k.1 = e.1 := fun he => ⟨e, he, rfl⟩
  cases v with
  | list l =>
    rcases visitList_cases map h l with ⟨_, -, -, heq⟩ | ⟨-, -, -, -, hcache⟩
    · rw [Emitter.visit, heq] at he
      exact .inl (hkeep he)
    · rw [Emitter.visit, hcache] at he
      rcases map.assigned he with he | ⟨-, rfl | ⟨-, hk⟩⟩
      · exact .inl (hkeep he)
      · exact .inr rfl
      · exact .inl hk
  | string s =>
    rw [(emits_visit h fun _ => by simp).lists] at he
    exact .inl (hkeep he)
  | other init =>
    rw [(emits_visit h fun _ => by simp).lists] at he
    exact .inl (hkeep he)

end Cache

/-! ## 5. Runs -/

/-- After the visits `vs` of an entry function. -/
def Emitter.after (map : CacheMap) (vs : List Visit) : Emitter :=
  Machine.run (Emitter.visit map) {} vs

/-- Each visit of a list yields a constant that is the list. -/
def Transparent (map : CacheMap) (vs : List Visit) : Prop :=
  ∀ pre l, pre ++ [.list l] <+: vs →
    Holds ((Emitter.after map pre).visitList map l).2.globals
      ((Emitter.after map pre).visitList map l).1 l

/-- The lists that are visited. -/
def visitedLists (vs : List Visit) : List ConstantListValueType :=
  vs.filterMap fun
    | .list l => some l
    | _ => none

/-- No list is visited after another one to which it is equivalent. -/
def Apart (vs : List Visit) : Prop :=
  (visitedLists vs).Pairwise fun k l => constListEquivalent k l = true → k = l

instance (vs : List Visit) : Decidable (Apart vs) := by
  unfold Apart
  infer_instance

/-- No list that is visited has a NaN in it. -/
def WithoutNaN (vs : List Visit) : Prop := ∀ l ∈ visitedLists vs, hasNaN l = false

instance (vs : List Visit) : Decidable (WithoutNaN vs) := by
  unfold WithoutNaN
  infer_instance

section Runs

variable {map : CacheMap} {vs pre : List Visit} {l : ConstantListValueType}

theorem visitedLists_concat (pre : List Visit) (v : Visit) : visitedLists (pre ++ [v]) =
    visitedLists pre ++ visitedLists [v] := List.filterMap_append

theorem apart_concat : Apart (pre ++ [.list l]) ↔
    Apart pre ∧ ∀ k ∈ visitedLists pre, constListEquivalent k l = true → k = l := by
  rw [Apart, visitedLists_concat, List.pairwise_append]
  exact and_congr_right fun _ => ⟨fun h k hk => h.2 k hk l (List.mem_singleton.mpr rfl),
    fun h => ⟨List.pairwise_singleton _ _, fun k hk l' hl' => List.mem_singleton.mp hl' ▸ h k hk⟩⟩

theorem Apart.of_prefix (h : Apart vs) (hp : pre <+: vs) : Apart pre := by
  obtain ⟨rest, rfl⟩ := hp
  rw [Apart, visitedLists, List.filterMap_append, List.pairwise_append] at h
  exact h.1

variable (map) in
theorem after_strings (vs : List Visit) : StringsSound (Emitter.after map vs) :=
  Machine.run_inv (by simp [StringsSound]) (fun _ v h => h.visit v) vs

theorem after_concat (pre : List Visit) (v : Visit) :
    Emitter.after map (pre ++ [v]) = (Emitter.after map pre).visit map v :=
  Machine.run_append_singleton _ _ _ _

/-- The keys are lists that were visited. -/
theorem visited_of_mem_cache {e : ConstantListValueType × PtrLen}
    (he : e ∈ (Emitter.after map vs).constListCache) : e.1 ∈ visitedLists vs := by
  induction vs using List.reverseRecOn generalizing e with
  | nil => exact nomatch he
  | append_singleton pre v ih =>
    rw [after_concat] at he
    rw [visitedLists_concat]
    rcases key_of_mem_visit (after_strings map pre) he with ⟨k, hk, hke⟩ | rfl
    · exact List.mem_append_left _ (hke ▸ ih hk)
    · exact List.mem_append_right _ (List.mem_singleton.mpr rfl)

/-- At each visit of the run an assignment concerns the entry of its key. -/
def AssignsKey (map : CacheMap) (vs : List Visit) : Prop :=
  ∀ pre l, pre ++ [.list l] <+: vs → map.find (Emitter.after map pre).constListCache l = none →
    ∀ v, ∀ e ∈ map.assign (Emitter.after map pre).constListCache l v,
      e ∈ (Emitter.after map pre).constListCache ∨ e = (l, v)

/-- **Every entry is the constant of its key.** -/
theorem AssignsKey.holds (h : AssignsKey map vs) :
    ∀ e ∈ (Emitter.after map vs).constListCache, Holds (Emitter.after map vs).globals e.2 e.1 := by
  induction vs using List.reverseRecOn with
  | nil => exact fun _ he => nomatch he
  | append_singleton pre v ih =>
    have hs := after_strings map pre
    replace ih := ih fun p l hp => h p l (hp.trans (List.prefix_append _ _))
    rw [after_concat]
    intro e he
    cases v with
    | list l =>
      rcases visitList_cases map hs l with ⟨_, -, -, heq⟩ | ⟨hfind, hglobals, -, hholds, hcache⟩
      · rw [Emitter.visit, heq] at he ⊢
        exact ih e he
      · rw [Emitter.visit, hcache] at he
        rcases h pre l List.prefix_rfl hfind _ e he with he | rfl
        · exact (ih e he).grow hglobals
        · exact hholds
    | string s =>
      have hemits : Emits _ (Emitter.visit map _ (.string s)) := emits_visit hs fun _ => by simp
      rw [hemits.lists] at he
      exact (ih e he).grow hemits.globals
    | other init =>
      have hemits : Emits _ (Emitter.visit map _ (.other init)) := emits_visit hs fun _ => by simp
      rw [hemits.lists] at he
      exact (ih e he).grow hemits.globals

/-- Lists that are apart: an entry with an equivalent key is that of the key. -/
theorem Apart.assignsKey (h : Apart vs) : AssignsKey map vs := by
  intro pre l hp _ v e he
  rcases map.assigned he with he | ⟨hv, hkey⟩
  · exact .inl he
  · refine .inr (Prod.ext ?_ hv)
    rcases hkey with hkey | ⟨hkey, k, hk, hke⟩
    · exact hkey
    · exact (apart_concat.mp (h.of_prefix hp)).2 _ (hke ▸ visited_of_mem_cache hk) hkey

/-- **Lists that are apart**: the cache is transparent, whatever the map makes of NaNs. -/
theorem Apart.transparent (h : Apart vs) : Transparent map vs := by
  intro pre l hp
  have hpre := h.of_prefix hp
  rcases visitList_cases map (after_strings map pre) l with ⟨e, he, hkey, heq⟩ |
    ⟨-, -, -, hholds, -⟩
  · have hl : e.1 = l := (apart_concat.mp hpre).2 _ (visited_of_mem_cache he) hkey
    rw [heq, ← hl]
    exact (apart_concat.mp hpre).1.assignsKey.holds e he
  · exact hholds

/-- At each visit of the run the map behaves as for an order. -/
def Exact (map : CacheMap) (vs : List Visit) : Prop :=
  ∀ pre l, pre ++ [.list l] <+: vs →
    map.find (Emitter.after map pre).constListCache l = none →
      (∀ e ∈ (Emitter.after map pre).constListCache, constListEquivalent e.1 l = false) ∧
        ∀ v, map.assign (Emitter.after map pre).constListCache l v =
          (Emitter.after map pre).constListCache ++ [(l, v)]

theorem exact_first (vs : List Visit) : Exact .first vs := fun _ _ _ h =>
  ⟨fun e he => Bool.eq_false_iff.mpr (List.find?_eq_none.mp h e he), fun _ => rfl⟩

theorem Exact.assignsKey (h : Exact map vs) : AssignsKey map vs := by
  intro pre l hp hfind v e he
  rw [(h pre l hp hfind).2] at he
  exact (List.mem_append.mp he).imp_right List.mem_singleton.mp

theorem WithoutNaN.exact (h : WithoutNaN vs) : Exact map vs := by
  rintro pre l ⟨rest, rfl⟩
  have hvisited : ∀ k, k ∈ visitedLists pre ++ [l] → hasNaN k = false := by
    intro k hk
    refine h k ?_
    rw [visitedLists, List.filterMap_append, List.filterMap_append]
    exact List.mem_append_left _ hk
  exact map.ordered (hvisited l (by simp)) fun e he =>
    hvisited e.1 (List.mem_append_left _ (visited_of_mem_cache he))

theorem floatEquivalent_comm {w : Nat} (isNaN : BitVec w → Bool) (a b : BitVec w) :
    floatEquivalent isNaN a b = floatEquivalent isNaN b a := by
  rw [floatEquivalent, floatEquivalent, Bool.or_comm (isNaN a), BEq.comm (a := a), Bool.and_comm]

theorem listEquivalent_comm {α : Type} {equivalent : α → α → Bool}
    (h : ∀ a b, equivalent a b = equivalent b a) (as bs : List α) :
    listEquivalent equivalent as bs = listEquivalent equivalent bs as := by
  induction as generalizing bs with
  | nil => cases bs <;> rfl
  | cons a as ih =>
    cases bs with
    | nil => rfl
    | cons b bs => rw [listEquivalent, listEquivalent, h, ih]

theorem constListEquivalent_comm (k l : ConstantListValueType) :
    constListEquivalent k l = constListEquivalent l k := by
  cases k <;> cases l <;> simp only [constListEquivalent, BEq.comm]
  · exact listEquivalent_comm (floatEquivalent_comm isNaN32) _ _
  · exact listEquivalent_comm (floatEquivalent_comm isNaN64) _ _

/-- Of two equivalent lists that are apart, whichever comes first, there is only one. -/
theorem Apart.eq_of_equivalent (h : Apart vs) {k : ConstantListValueType} (hk : k ∈ visitedLists vs)
    (hl : l ∈ visitedLists vs) (hkl : constListEquivalent k l = true) : k = l := by
  have hsymm : Std.Symm fun k l : ConstantListValueType =>
      constListEquivalent k l = true → k = l :=
    ⟨fun a b hab hba => (hab (by rwa [constListEquivalent_comm])).symm⟩
  by_contra hne
  exact hne (h.forall hk hl hne hkl)

/-- **Where the map behaves as for an order, the lists of a transparent run are apart**, and each
has an entry. -/
theorem apart_of_transparent (hx : Exact map vs) (h : Transparent map vs) :
    Apart vs ∧ ∀ k ∈ visitedLists vs, ∃ e ∈ (Emitter.after map vs).constListCache, e.1 = k := by
  induction vs using List.reverseRecOn with
  | nil => exact ⟨.nil, fun _ hk => nomatch hk⟩
  | append_singleton pre v ih =>
    have hs := after_strings map pre
    have hpre := List.prefix_append pre [v]
    obtain ⟨hapart, hentry⟩ := ih (fun p l hp => hx p l (hp.trans hpre))
      fun p l hp => h p l (hp.trans hpre)
    rw [after_concat, visitedLists_concat]
    cases v with
    | string s =>
      rw [Apart, visitedLists_concat, (emits_visit hs (v := .string s) fun _ => by simp).lists]
      exact ⟨by simpa [visitedLists, Apart] using hapart, by simpa [visitedLists] using hentry⟩
    | other init =>
      rw [Apart, visitedLists_concat, (emits_visit hs (v := .other init) fun _ => by simp).lists]
      exact ⟨by simpa [visitedLists, Apart] using hapart, by simpa [visitedLists] using hentry⟩
    | list l =>
      have hl := h pre l List.prefix_rfl
      rcases visitList_cases map hs l with ⟨e, he, hkey, heq⟩ | ⟨hfind, -, -, -, hcache⟩
      · -- the constant that was found is that of `l`
        rw [heq] at hl
        obtain rfl := (hapart.assignsKey.holds e he).inj hl hkey
        have hvisited := visited_of_mem_cache he
        rw [Emitter.visit, heq]
        refine ⟨apart_concat.mpr ⟨hapart, fun k hk => hapart.eq_of_equivalent hk hvisited⟩, ?_⟩
        intro k hk
        rcases List.mem_append.mp hk with hk | hk
        · exact hentry k hk
        · exact ⟨e, he, (List.mem_singleton.mp hk).symm⟩
      · obtain ⟨hmiss, hassign⟩ := hx pre l List.prefix_rfl hfind
        rw [Emitter.visit, hcache, hassign]
        refine ⟨apart_concat.mpr ⟨hapart, fun k hk hkl => ?_⟩, fun k hk => ?_⟩
        · obtain ⟨e, he, rfl⟩ := hentry k hk
          rw [hmiss e he] at hkl
          cases hkl
        · rcases List.mem_append.mp hk with hk | hk
          · obtain ⟨e, he, hke⟩ := hentry k hk
            exact ⟨e, List.mem_append_left _ he, hke⟩
          · exact ⟨_, List.mem_append_right _ (List.mem_singleton.mpr rfl),
              (List.mem_singleton.mp hk).symm⟩

/-- **The cache is sure to be transparent in a run exactly if no list is visited after a different
one that `<` does not tell from it**; in a run without NaNs it is transparent exactly then. -/
theorem constList_transparent_iff (vs : List Visit) :
    ((∀ map, Transparent map vs) ↔ Apart vs) ∧
      (WithoutNaN vs → ∀ map, Transparent map vs ↔ Apart vs) :=
  ⟨⟨fun h => (apart_of_transparent (exact_first vs) (h .first)).1, fun h _ => h.transparent⟩,
    fun hnan _ => ⟨fun h => (apart_of_transparent hnan.exact h).1, fun h => h.transparent⟩⟩

/-- `[0.0]`, `["a"]` and `[0.0]` again; `[0.0]` and `[-0.0]`. -/
theorem constList_transparent_iff_zeros :
    Transparent .first [.list (.f64 [0]), .list (.string [[97]]), .list (.f64 [0])] ∧
      ¬ Transparent .first [.list (.f64 [0]), .list (.f64 [0x8000000000000000])] := by
  refine ⟨(constList_transparent_iff _).1.mpr (by decide) _, ?_⟩
  rw [(constList_transparent_iff _).2 (by decide) .first]
  decide

/-- `[-0.0]` after `[0.0]` yields the constant of `[0.0]`. -/
theorem constList_zeros_not_transparent :
    ¬ Transparent .first [.list (.f64 [0]), .list (.f64 [0x8000000000000000])] := by
  intro h
  have hholds := h [.list (.f64 [0])] (.f64 [0x8000000000000000]) List.prefix_rfl
  have hpay : (Emitter.after .first [.list (.f64 [0])]).globals[0]? =
      some (.array (.f64 [0x8000000000000000])) := hholds.payload
  revert hpay
  decide

end Runs

/-! ## 6. The generator's literals -/

/-- The generator has a literal for each cached constant: the list of its key. -/
def Mirrors (s : State) (m : Emitter) : Prop :=
  s.constListCache = m.constListCache.map fun e =>
    (e.1, ⟨.const (.list e.1), (Literal.list e.1).type⟩)

/-- **The generator's literal is the list that the constant is**, after any visits. -/
theorem visit_refines {ctx : Context} {info : NodeInfo} {l : ConstantListValueType} {s : State}
    {vs : List Visit} (h : Mirrors s (Emitter.after .first vs)) :
    ∃ k s', (visit ctx (.constantListValue info l)).run s =
        .ok (some ⟨.const (.list k), (Literal.list k).type⟩, s') ∧
      Holds ((Emitter.after .first vs).visitList .first l).2.globals
        ((Emitter.after .first vs).visitList .first l).1 k ∧
      Mirrors s' (Emitter.after .first (vs ++ [.list l])) := by
  rw [after_concat]
  have hfind : s.constListCache.find? (fun e => constListEquivalent e.1 l) =
      (CacheMap.first.find (Emitter.after .first vs).constListCache l).map fun e =>
        (e.1, ⟨.const (.list e.1), (Literal.list e.1).type⟩) := by
    rw [h, List.find?_map]
    rfl
  rw [visit, Checked.run_bind_ok (Checked.run_get_eq_ok.mpr ⟨rfl, rfl⟩), hfind, Emitter.visit,
    Emitter.visitList]
  cases hm : CacheMap.first.find (Emitter.after .first vs).constListCache l with
  | some e =>
    obtain ⟨hmem, -⟩ := CacheMap.first.found hm
    exact ⟨e.1, s, rfl, (exact_first vs).assignsKey.holds e hmem, h⟩
  | none =>
    obtain ⟨hemits, hholds⟩ := emits_makeList (after_strings .first vs) l
    refine ⟨l, _, rfl, hholds, ?_⟩
    have happend : ∀ c v, CacheMap.first.assign c l v = c ++ [(l, v)] := fun _ _ => rfl
    simp only [Mirrors, hemits.lists, happend, List.map_append, List.map_cons, List.map_nil]
    exact congrArg (· ++ _) h

end ConstList

end CodeGen

end JitFusion
