/-
# Symbol names

`FunctionSignature` is the key of the registry, with `operator==` and `Hash`, and its rendering is
the name of a symbol (`src/function_registry.cc`).  `MappingToJIT` binds the MANGLED names, and the
entry functions of a module are named `entry`, `entry0`, `entry1` and so on.

* Renderings identify keys and none is the name of an entry function, whatever the function names.
* Mangling drops the byte `1` at the beginning of a name and puts a prefix before every other name.
  So two keys have one mangled name if and only if the name of one is that of the other after the
  byte `1` and the prefix (`mangle_eq_iff`), and `MappingToJIT` drops no entry if no two registered
  functions are such (`lookup_mappingToJIT`).
-/
import JitFusion.ExecEngine
import JitFusion.FunctionRegistry

namespace JitFusion

/-! ## 1. Renderings -/

namespace TypeHelper

/-- The inverse of `typeToString`. -/
def typeOfString (s : String) : Option ValueType :=
  [ValueType.kUnknown, .kVoid, .kU8, .kU16, .kU32, .kU64, .kI8, .kI16, .kI32, .kI64, .kF32,
    .kF64, .kString, .kU8List, .kU16List, .kU32List, .kU64List, .kI8List, .kI16List, .kI32List,
    .kI64List, .kF32List, .kF64List, .kStringList, .kPtr].find? fun t => typeToString t == s

theorem typeOfString_typeToString (t : ValueType) : typeOfString (typeToString t) = some t := by
  cases t <;> decide

theorem typeToString_injective : Function.Injective typeToString := fun t u h => by
  simpa [typeOfString_typeToString] using congrArg typeOfString h

theorem notMem_typeToString (t : ValueType) :
    '(' ∉ (typeToString t).toList ∧ ',' ∉ (typeToString t).toList := by
  cases t <;> decide

end TypeHelper

namespace FunctionSignature

open TypeHelper

/-- No type name has a parenthesis, so neither has a rendered parameter list. -/
theorem notMem_renderParams (ps : List ValueType) : '(' ∉ (renderParams ps).toList := by
  induction ps with
  | nil => simp [renderParams]
  | cons t ps ih =>
    cases ps with
    | nil => exact (notMem_typeToString t).1
    | cons u ts =>
      simp only [renderParams, String.toList_append, List.mem_append, not_or]
      exact ⟨⟨(notMem_typeToString t).1, by decide⟩, ih⟩

theorem typeToString_ne_empty (t : ValueType) : (typeToString t).toList ≠ [] := by
  cases t <;> decide

/-- A type name followed by a comma does not begin a single type name. -/
theorem typeToString_ne_append_comma (t u : ValueType) (l : List Char) :
    (typeToString t).toList ≠ (typeToString u).toList ++ ',' :: l := by
  intro h
  exact (notMem_typeToString t).2 (h ▸ List.mem_append_right _ List.mem_cons_self)

/-- Two ways of splitting a list at an element that does not occur before the split agree. -/
theorem append_cons_inj_of_notMem_left {α : Type} {a : α} {x₁ x₂ z₁ z₂ : List α} (h₁ : a ∉ x₁)
    (h₂ : a ∉ x₂) (h : x₁ ++ a :: z₁ = x₂ ++ a :: z₂) : x₁ = x₂ ∧ z₁ = z₂ := by
  induction x₁ generalizing x₂ with
  | nil =>
    cases x₂ with
    | nil => exact ⟨rfl, (List.cons.inj h).2⟩
    | cons b x₂ => exact absurd ((List.cons.inj h).1 ▸ List.mem_cons_self) h₂
  | cons b x₁ ih =>
    cases x₂ with
    | nil => exact absurd ((List.cons.inj h).1 ▸ List.mem_cons_self) h₁
    | cons c x₂ =>
      obtain ⟨hb, ht⟩ := List.cons.inj h
      obtain ⟨hx, hz⟩ := ih (fun hm => h₁ (List.mem_cons_of_mem _ hm))
        (fun hm => h₂ (List.mem_cons_of_mem _ hm)) ht
      exact ⟨by rw [hb, hx], hz⟩

/-- Two ways of splitting a list at an element that does not occur after the split agree. -/
theorem append_cons_inj_of_notMem_right {α : Type} {x₁ x₂ z₁ z₂ : List α} {a : α}
    (h₁ : a ∉ z₁) (h₂ : a ∉ z₂) (h : x₁ ++ a :: z₁ = x₂ ++ a :: z₂) : x₁ = x₂ ∧ z₁ = z₂ := by
  have hr := congrArg List.reverse h
  simp only [List.reverse_append, List.reverse_cons, List.append_assoc,
    List.cons_append, List.nil_append] at hr
  obtain ⟨hz, hx⟩ := append_cons_inj_of_notMem_left (by simpa using h₁) (by simpa using h₂) hr
  exact ⟨List.reverse_injective hx, List.reverse_injective hz⟩

/-- **Parameter lists are recovered from their rendering.**  No type name contains a comma, so
the first comma ends the first type. -/
theorem renderParams_injective (ps qs : List ValueType)
    (h : (renderParams ps).toList = (renderParams qs).toList) : ps = qs := by
  induction ps generalizing qs with
  | nil =>
    rcases qs with _ | ⟨t, _ | ⟨u, ts⟩⟩
    · rfl
    · exact absurd h.symm (typeToString_ne_empty t)
    · simp [renderParams] at h
  | cons t ps ih =>
    cases ps with
    | nil =>
      rcases qs with _ | ⟨u, _ | ⟨v, us⟩⟩
      · exact absurd h (typeToString_ne_empty t)
      · rw [typeToString_injective (String.toList_injective h)]
      · simp only [renderParams, String.toList_append, List.append_assoc] at h
        exact absurd h (typeToString_ne_append_comma t u _)
    | cons t' ts =>
      rcases qs with _ | ⟨u, _ | ⟨u', us⟩⟩
      · simp [renderParams] at h
      · simp only [renderParams, String.toList_append, List.append_assoc] at h
        exact absurd h.symm (typeToString_ne_append_comma u t _)
      · simp only [renderParams, String.toList_append, List.append_assoc] at h
        have h' : (typeToString t).toList ++ ',' :: (' ' :: (renderParams (t' :: ts)).toList)
            = (typeToString u).toList ++ ',' :: (' ' :: (renderParams (u' :: us)).toList) := h
        obtain ⟨htu, hrest⟩ := append_cons_inj_of_notMem_left (notMem_typeToString t).2
          (notMem_typeToString u).2 h'
        rw [typeToString_injective (String.toList_injective htu), ih _ (List.cons.inj hrest).2]

/-- **Symbols identify signatures.**  The last parenthesis that opens separates the name,
which may hold any characters, from the parameters, which hold none. -/
theorem key_eq_of_toString_eq {s t : FunctionSignature} (h : s.toString = t.toString) :
    s.key = t.key := by
  have hl := congrArg String.toList h
  simp only [toString, String.toList_append, List.append_assoc] at hl
  have hl' : s.funcName.toList ++ '(' :: ((renderParams s.paramTypes).toList ++ [')'])
      = t.funcName.toList ++ '(' :: ((renderParams t.paramTypes).toList ++ [')']) := hl
  have hs : '(' ∉ (renderParams s.paramTypes).toList ++ [')'] := by
    simp [notMem_renderParams]
  have ht : '(' ∉ (renderParams t.paramTypes).toList ++ [')'] := by
    simp [notMem_renderParams]
  obtain ⟨hn, hp⟩ := append_cons_inj_of_notMem_right hs ht hl'
  have hps : (renderParams s.paramTypes).toList = (renderParams t.paramTypes).toList :=
    List.append_cancel_right hp
  simp only [key, Prod.mk.injEq]
  exact ⟨String.toList_injective hn, renderParams_injective _ _ hps⟩

end FunctionSignature

namespace FunctionSignature

/-! ## 2. Equality and hash -/

/-- The loop of `operator==` over the parameter types of two lists of one length. -/
def sameTypes : List ValueType → List ValueType → Bool
  | t :: ts, u :: us => if t ≠ u then false else sameTypes ts us
  | _, _ => true

/-- `operator==`. -/
def beq (s t : FunctionSignature) : Bool :=
  if s.paramTypes.length ≠ t.paramTypes.length ∨ s.funcName ≠ t.funcName then false
  else sameTypes s.paramTypes t.paramTypes

/-- `hash_combine_impl` where `size_t` has 64 bits. -/
def hashCombine (seed value : UInt64) : UInt64 :=
  seed ^^^ (value + 0x9e3779b9 + (seed <<< (6 : UInt64)) + (seed >>> (2 : UInt64)))

/-- `static_cast<std::size_t>` of a type: its place in the enumeration. -/
def typeCode (t : ValueType) : UInt64 := UInt64.ofNat t.ctorIdx

/-- `Hash`, with `std::hash` of strings and of numbers. -/
def hash (hashString : String → UInt64) (hashSize : UInt64 → UInt64) (s : FunctionSignature) :
    UInt64 :=
  s.paramTypes.foldl (fun result t => hashCombine result (hashSize (typeCode t)))
    (hashCombine 17 (hashString s.funcName))

theorem sameTypes_iff {ts us : List ValueType} (h : ts.length = us.length) :
    sameTypes ts us = true ↔ ts = us := by
  induction ts generalizing us with
  | nil =>
    obtain rfl := List.length_eq_zero_iff.mp h.symm
    exact ⟨fun _ => rfl, fun _ => rfl⟩
  | cons t ts ih =>
    rcases us with _ | ⟨u, us⟩
    · cases h
    rw [sameTypes]
    by_cases ht : t = u
    · rw [if_neg (not_not.mpr ht), ih (Nat.succ.inj h), List.cons.injEq]
      exact ⟨fun hs => ⟨ht, hs⟩, And.right⟩
    · rw [if_pos ht, List.cons.injEq]
      exact ⟨fun hs => absurd hs Bool.false_ne_true, fun he => absurd he.1 ht⟩

/-- **`operator==` compares the keys.** -/
theorem beq_iff {s t : FunctionSignature} : s.beq t = true ↔ s.key = t.key := by
  rw [beq, key, key, Prod.mk.injEq]
  split
  · next h =>
    refine ⟨fun hs => absurd hs Bool.false_ne_true, fun hk => ?_⟩
    rcases h with h | h
    · exact absurd (congrArg List.length hk.2) h
    · exact absurd hk.1 h
  · next h =>
    rw [not_or, not_not, not_not] at h
    rw [sameTypes_iff h.1]
    exact ⟨fun hs => ⟨h.2, hs⟩, And.right⟩

theorem hash_eq_of_key_eq (hashString : String → UInt64) (hashSize : UInt64 → UInt64)
    {s t : FunctionSignature} (h : s.key = t.key) :
    s.hash hashString hashSize = t.hash hashString hashSize := by
  obtain ⟨hname, hparams⟩ := Prod.mk.inj h
  rw [hash, hash, hname, hparams]

theorem toString_eq_iff {s t : FunctionSignature} : s.toString = t.toString ↔ s.key = t.key := by
  refine ⟨key_eq_of_toString_eq, fun h => ?_⟩
  obtain ⟨hname, hparams⟩ := Prod.mk.inj h
  rw [toString, toString, hname, hparams]

/-- A rendering has its parentheses. -/
theorem toList_toString (s : FunctionSignature) : s.toString.toList =
    s.funcName.toList ++ '(' :: ((renderParams s.paramTypes).toList ++ [')']) := by
  simp only [toString, String.toList_append, List.append_assoc]
  rfl

/-- The name ends in a parenthesis. -/
def Closes (name : String) : Prop := ∃ front, name.toList = front ++ [')']

theorem closes_toString (s : FunctionSignature) : Closes s.toString := by
  refine ⟨s.funcName.toList ++ '(' :: (renderParams s.paramTypes).toList, ?_⟩
  rw [toList_toString, List.append_assoc, List.cons_append]

/-- `entry` and digits do not end in a parenthesis, whatever is before. -/
theorem not_closes_entry (front digits : String) (hd : ∀ c ∈ digits.toList, c.isDigit = true) :
    ¬ Closes (front ++ (kEntryFunctionName ++ digits)) := by
  rintro ⟨l, hl⟩
  have hlast := congrArg List.getLast? hl
  rw [String.toList_append, String.toList_append, List.getLast?_append, List.getLast?_append,
    List.getLast?_append, List.getLast?_singleton, Option.some_or] at hlast
  cases hdig : digits.toList.getLast? with
  | some c =>
    rw [hdig] at hlast
    have hc := hd c (List.mem_of_getLast? hdig)
    obtain rfl : c = ')' := Option.some.inj hlast
    exact absurd hc (by decide)
  | none =>
    have hentry : kEntryFunctionName.toList.getLast? = some 'y' := rfl
    rw [hdig, hentry] at hlast
    exact absurd (Option.some.inj hlast) (by decide)

/-! ## 3. Mangled names -/

/-- The byte at the beginning of a name that is to be taken as it is. -/
def verbatimMark : Char := Char.ofNat 1

/-- The name begins with the byte `1`. -/
def Verbatim (name : String) : Prop := ∃ rest, name.toList = verbatimMark :: rest

/-- What LLVM's mangler does with a name: it drops the mark, or puts the prefix of the target before
the name. -/
structure Mangles (globalPrefix : String) (mangle : String → String) : Prop where
  verbatim : ∀ name, mangle (String.singleton verbatimMark ++ name) = name
  prefixed : ∀ name, ¬ Verbatim name → mangle name = globalPrefix ++ name

/-- The name of the first key is that of the second, marked and with the prefix. -/
def MarkedTwin (globalPrefix : String) (k l : SigKey) : Prop :=
  ¬ Verbatim l.1 ∧ k = (String.singleton verbatimMark ++ (globalPrefix ++ l.1), l.2)

theorem toList_marked (name : String) :
    (String.singleton verbatimMark ++ name).toList = verbatimMark :: name.toList := by
  rw [String.toList_append, String.toList_singleton]
  rfl

theorem verbatim_iff {name : String} :
    Verbatim name ↔ ∃ rest, name = String.singleton verbatimMark ++ rest := by
  constructor
  · rintro ⟨rest, h⟩
    refine ⟨String.ofList rest, String.toList_injective ?_⟩
    rw [toList_marked, h, String.toList_ofList]
  · rintro ⟨rest, rfl⟩
    exact ⟨rest.toList, toList_marked rest⟩

/-- A rendering begins like the name. -/
theorem verbatim_toString {s : FunctionSignature} (h : Verbatim s.toString) :
    Verbatim s.funcName := by
  obtain ⟨rest, h⟩ := h
  rw [toList_toString] at h
  cases hname : s.funcName.toList with
  | nil =>
    rw [hname] at h
    exact absurd (List.cons.inj h).1 (by decide)
  | cons c cs =>
    rw [hname] at h
    exact ⟨cs, by rw [hname, (List.cons.inj h).1]⟩

theorem not_verbatim_entry (digits : String) : ¬ Verbatim (kEntryFunctionName ++ digits) := by
  rintro ⟨rest, h⟩
  rw [String.toList_append] at h
  exact absurd (List.cons.inj h).1 (by decide)

/-- A rendering follows its name. -/
theorem append_toString (front : String) (s : FunctionSignature) :
    front ++ s.toString = { s with funcName := front ++ s.funcName }.toString := by
  simp only [toString, String.append_assoc]

namespace Mangles

variable {globalPrefix : String} {mangle : String → String}

/-- A mangled rendering is the rendering of another signature. -/
theorem toString_eq (h : Mangles globalPrefix mangle) (s : FunctionSignature) :
    ∃ name, mangle s.toString = { s with funcName := name }.toString ∧
      ((Verbatim s.funcName ∧ s.funcName = String.singleton verbatimMark ++ name) ∨
        (¬ Verbatim s.funcName ∧ name = globalPrefix ++ s.funcName)) := by
  by_cases hv : Verbatim s.funcName
  · obtain ⟨name, hname⟩ := verbatim_iff.mp hv
    refine ⟨name, ?_, .inl ⟨hv, hname⟩⟩
    have hs : s.toString =
        String.singleton verbatimMark ++ { s with funcName := name }.toString := by
      rw [append_toString]
      exact toString_eq_iff.mpr (Prod.ext hname rfl)
    rw [hs, h.verbatim]
  · refine ⟨globalPrefix ++ s.funcName, ?_, .inr ⟨hv, rfl⟩⟩
    rw [h.prefixed _ fun hs => hv (verbatim_toString hs), append_toString]

/-- **When two keys have one mangled name.** -/
theorem mangle_eq_iff (h : Mangles globalPrefix mangle) (s t : FunctionSignature) :
    mangle s.toString = mangle t.toString ↔ s.key = t.key ∨
      MarkedTwin globalPrefix s.key t.key ∨ MarkedTwin globalPrefix t.key s.key := by
  constructor
  · intro he
    obtain ⟨n, hn, hs⟩ := h.toString_eq s
    obtain ⟨m, hm, ht⟩ := h.toString_eq t
    rw [hn, hm] at he
    obtain ⟨rfl, hparams⟩ := Prod.mk.inj (key_eq_of_toString_eq he)
    replace hparams : s.paramTypes = t.paramTypes := hparams
    rcases hs with ⟨hvs, hs⟩ | ⟨hvs, hs⟩ <;> rcases ht with ⟨hvt, ht⟩ | ⟨hvt, ht⟩
    · exact .inl (Prod.ext (hs.trans ht.symm) hparams)
    · have hname := hs.trans (congrArg (String.singleton verbatimMark ++ ·) ht)
      exact .inr (.inl ⟨hvt, Prod.ext hname hparams⟩)
    · have hname := ht.trans (congrArg (String.singleton verbatimMark ++ ·) hs)
      exact .inr (.inr ⟨hvs, Prod.ext hname hparams.symm⟩)
    · have hname : globalPrefix ++ s.funcName = globalPrefix ++ t.funcName := hs.symm.trans ht
      exact .inl (Prod.ext (String.append_right_inj _ |>.mp hname) hparams)
  · have htwin : ∀ {s t : FunctionSignature}, MarkedTwin globalPrefix s.key t.key →
        mangle s.toString = mangle t.toString := by
      rintro s t ⟨hv, hk⟩
      have hs : s.toString = String.singleton verbatimMark ++ (globalPrefix ++ t.toString) := by
        rw [append_toString, append_toString]
        exact toString_eq_iff.mpr hk
      rw [hs, h.verbatim, h.prefixed _ fun ht => hv (verbatim_toString ht)]
    rintro (hk | hk | hk)
    · rw [toString_eq_iff.mpr hk]
    · exact htwin hk
    · exact (htwin hk).symm

/-- No mangled rendering is the mangled name of an entry function. -/
theorem ne_entry (h : Mangles globalPrefix mangle) (s : FunctionSignature) {digits : String}
    (hd : ∀ c ∈ digits.toList, c.isDigit = true) :
    mangle s.toString ≠ mangle (kEntryFunctionName ++ digits) := by
  obtain ⟨name, hname, -⟩ := h.toString_eq s
  rw [hname, h.prefixed _ (not_verbatim_entry digits)]
  exact fun he => not_closes_entry _ digits hd (he ▸ closes_toString _)

end Mangles

end FunctionSignature

namespace FunctionRegistry

open FunctionSignature

/-! ## 4. `MappingToJIT` -/

/-- The entry of a key, as a pair in the table. -/
theorem mem_entries_iff {reg : FunctionRegistry} {key : SigKey}
    {v : ValueType × FunctionStructure} :
    (⟨key, v⟩ : Sigma fun _ : SigKey => ValueType × FunctionStructure)
      ∈ reg.signature2funcstruct.entries ↔ reg.find key = some v :=
  (AList.mem_lookup_iff).symm

theorem lookup_tryEmplace (symbols : AList (fun _ : String => Nat)) (n name : String) (p : Nat) :
    (tryEmplace symbols n p).lookup name
      = (symbols.lookup name).or (if n = name then some p else none) := by
  unfold tryEmplace
  by_cases hmem : n ∈ symbols
  · rw [if_pos hmem]
    split
    · rename_i hn
      subst hn
      obtain ⟨v, hv⟩ := Option.isSome_iff_exists.mp (AList.lookup_isSome.mpr hmem)
      simp [hv]
    · simp
  · rw [if_neg hmem]
    split
    · rename_i hn
      subst hn
      simp [AList.lookup_eq_none.mpr hmem]
    · rename_i hn
      simp [AList.lookup_insert_ne (fun h => hn h.symm)]

/-- Emplacing a list of named values into a table: a name that is there stays, and otherwise
the first value of the list with that name is stored. -/
theorem lookup_foldl_tryEmplace {β : Type} (f : β → Option String) (g : β → Nat) (name : String)
    (l : List β) (symbols : AList (fun _ : String => Nat)) :
    (l.foldl (fun acc e => (f e).elim acc fun n => tryEmplace acc n (g e)) symbols).lookup name
      = (symbols.lookup name).or ((l.find? fun e => f e == some name).map g) := by
  induction l generalizing symbols with
  | nil => simp
  | cons e l ih =>
    rw [List.foldl_cons, ih, List.find?_cons]
    cases he : f e with
    | none => rfl
    | some n =>
      rw [Option.elim_some, lookup_tryEmplace, Option.or_assoc]
      by_cases hn : n = name
      · simp [hn]
      · have hb : (some n == some name) = false := by simpa using hn
        simp [hn, hb]

/-- The key is that of a function whose symbol is bound. -/
def Binds (reg : FunctionRegistry) (key : SigKey) (fs : FunctionStructure) (name : String) : Prop :=
  ∃ retType, reg.find key = some (retType, fs) ∧ linkName key fs = some name

theorem linkName_eq {key : SigKey} {fs : FunctionStructure} {name : String}
    (h : linkName key fs = some name) :
    name = FunctionSignature.toString ⟨key.1, key.2, .kUnknown⟩ := by
  unfold linkName at h
  split at h
  · exact nomatch h
  · split at h
    · exact nomatch h
    · exact (Option.some.inj h).symm

/-- **No entry is dropped** if no two of the names are marked twins. -/
theorem lookup_mappingToJIT {globalPrefix : String} {mangle : String → String}
    (hmangle : Mangles globalPrefix mangle) {reg : FunctionRegistry}
    (hno : ∀ k l fs fs' name name', reg.Binds k fs name → reg.Binds l fs' name' →
      ¬ MarkedTwin globalPrefix k l)
    {key : SigKey} {fs : FunctionStructure} {name : String} (h : reg.Binds key fs name) :
    (reg.mappingToJIT mangle).lookup (mangle name) = some fs.cFuncPtr := by
  have hl := lookup_foldl_tryEmplace
    (fun e : Sigma fun _ : SigKey => ValueType × FunctionStructure =>
      (linkName e.1 e.2.2).map mangle)
    (fun e => e.2.2.cFuncPtr) (mangle name) reg.signature2funcstruct.entries ∅
  simp only [AList.lookup_empty, Option.none_or] at hl
  rw [mappingToJIT, hl]
  obtain ⟨retType, hfind, hlink⟩ := h
  have hmem := mem_entries_iff.mpr hfind
  cases hf : reg.signature2funcstruct.entries.find?
      (fun e => (linkName e.1 e.2.2).map mangle == some (mangle name)) with
  | none =>
    have hne := List.find?_eq_none.mp hf _ hmem
    simp [hlink] at hne
  | some e =>
    have hfe : reg.find e.1 = some e.2 := mem_entries_iff.mp (List.mem_of_find?_eq_some hf)
    have hsome : (linkName e.1 e.2.2).map mangle = some (mangle name) := by
      simpa using List.find?_some hf
    obtain ⟨name', hlink', hname'⟩ := Option.map_eq_some_iff.mp hsome
    have hb : reg.Binds e.1 e.2.2 name' := ⟨e.2.1, hfe, hlink'⟩
    have hb' : reg.Binds key fs name := ⟨retType, hfind, hlink⟩
    rw [linkName_eq hlink', linkName_eq hlink, hmangle.mangle_eq_iff] at hname'
    have hkey : e.1 = key := by
      rcases hname' with hk | hk | hk
      · exact hk
      · exact absurd hk (hno _ _ _ _ _ _ hb hb')
      · exact absurd hk (hno _ _ _ _ _ _ hb' hb)
    rw [hkey, hfind] at hfe
    rw [Option.map_some, ← Option.some.inj hfe]

/-- **Symbols identify signatures.**  Renderings, `operator==` and `Hash` agree on the keys; two
keys have one mangled name only if they are marked twins; no name is that of an entry function; and
where no two functions are marked twins `MappingToJIT` binds every entry to its own address. -/
theorem symbols_identify {globalPrefix : String} {mangle : String → String}
    (hmangle : Mangles globalPrefix mangle) :
    (∀ s t : FunctionSignature, (s.toString = t.toString ↔ s.key = t.key) ∧
      (s.beq t = true ↔ s.key = t.key) ∧
      (s.beq t = true → ∀ hashString hashSize,
        s.hash hashString hashSize = t.hash hashString hashSize) ∧
      (mangle s.toString = mangle t.toString ↔ s.key = t.key ∨
        MarkedTwin globalPrefix s.key t.key ∨ MarkedTwin globalPrefix t.key s.key)) ∧
    (∀ (s : FunctionSignature) (digits : String), (∀ c ∈ digits.toList, c.isDigit = true) →
      s.toString ≠ kEntryFunctionName ++ digits ∧
        mangle s.toString ≠ mangle (kEntryFunctionName ++ digits)) ∧
    ∀ reg : FunctionRegistry, (∀ k l fs fs' name name', reg.Binds k fs name →
        reg.Binds l fs' name' → ¬ MarkedTwin globalPrefix k l) →
      ∀ key fs name, reg.Binds key fs name →
        (reg.mappingToJIT mangle).lookup (mangle name) = some fs.cFuncPtr := by
  refine ⟨fun s t => ⟨toString_eq_iff, beq_iff, fun h hashString hashSize => ?_,
    hmangle.mangle_eq_iff s t⟩, fun s digits hd => ⟨fun he => ?_, hmangle.ne_entry s hd⟩,
    fun reg hno key fs name h => lookup_mappingToJIT hmangle hno h⟩
  · exact hash_eq_of_key_eq hashString hashSize (beq_iff.mp h)
  · refine not_closes_entry "" digits hd ?_
    rw [String.empty_append, ← he]
    exact closes_toString s

/-! ## 5. A marked twin -/

/-- Mangling where the target has no prefix. -/
def elfMangle (name : String) : String :=
  match name.toList with
  | [] => name
  | c :: rest => if c = verbatimMark then String.ofList rest else name

theorem elfMangle_mangles : Mangles "" elfMangle where
  verbatim name := by
    rw [elfMangle, toList_marked]
    simp
  prefixed name h := by
    rw [elfMangle, String.empty_append]
    cases hname : name.toList with
    | nil => rfl
    | cons c rest =>
      have hc : c ≠ verbatimMark := fun he => h ⟨rest, he ▸ hname⟩
      exact if_neg hc

/-- A function at address `1`, then one whose name has the mark before that of the first, at
address `2`. -/
def markedPair : FunctionRegistry :=
  (registerReadOnlyCFunc
    (registerReadOnlyCFunc {} ⟨"f", [.kI32], .kI32⟩ 1).2
    ⟨String.singleton verbatimMark ++ "f", [.kI32], .kI32⟩ 2).2

theorem markedPair_dropped : ¬ ∀ (reg : FunctionRegistry) key fs name, reg.Binds key fs name →
    (reg.mappingToJIT elfMangle).lookup (elfMangle name) = some fs.cFuncPtr := by
  intro h
  have hfirst := h markedPair ("f", [.kI32])
    { funcType := .kCFunc, cFuncPtr := 1, funcAttrSetter := .readOnly } "f(i32)"
    ⟨.kI32, by decide, by decide⟩
  revert hfirst
  decide

/-- Two functions of one name, one with a longer list of parameters. -/
def overloads : FunctionRegistry :=
  (registerReadOnlyCFunc
    (registerReadOnlyCFunc {} ⟨"f", [.kI32], .kI32⟩ 1).2 ⟨"f", [.kI32, .kF64], .kI32⟩ 2).2

theorem overloads_bound :
    (overloads.mappingToJIT elfMangle).lookup "f(i32)" = some 1 ∧
      (overloads.mappingToJIT elfMangle).lookup "f(i32, f64)" = some 2 := by
  have hkeys : ∀ k v, overloads.find k = some v →
      k = ("f", [.kI32, .kF64]) ∨ k = ("f", [.kI32]) := by
    intro k v hfind
    have hmem : k ∈ overloads.signature2funcstruct.keys :=
      AList.mem_keys.mpr (AList.lookup_isSome.mp (Option.isSome_of_mem hfind))
    have hlist : overloads.signature2funcstruct.keys = [("f", [.kI32, .kF64]), ("f", [.kI32])] := by
      decide
    simpa [hlist] using hmem
  -- neither name begins with the mark
  have hno : ∀ k l fs fs' name name', overloads.Binds k fs name → overloads.Binds l fs' name' →
      ¬ MarkedTwin "" k l := by
    rintro k l fs fs' name name' ⟨r, hk, -⟩ ⟨r', hl, -⟩ ⟨-, htwin⟩
    rcases hkeys k _ hk with rfl | rfl <;> rcases hkeys l _ hl with rfl | rfl <;>
      exact absurd htwin (by decide)
  have hbound := (symbols_identify elfMangle_mangles).2.2 overloads hno
  exact ⟨hbound ("f", [.kI32]) { funcType := .kCFunc, cFuncPtr := 1, funcAttrSetter := .readOnly }
      "f(i32)" ⟨.kI32, by decide, by decide⟩,
    hbound ("f", [.kI32, .kF64])
      { funcType := .kCFunc, cFuncPtr := 2, funcAttrSetter := .readOnly } "f(i32, f64)"
      ⟨.kI32, by decide, by decide⟩⟩

end FunctionRegistry

end JitFusion
