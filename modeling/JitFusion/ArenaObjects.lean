/-
# What an arena guarantees about its objects

Constructions nest like brackets (`Nested`), so the events of an epoch say which objects are
complete, and in which order.  A `Reset`, or the end of the arena, destroys exactly these, the
last one first, and no byte of an object is freed or handed out between its allocation and its
destruction (`World.finalizers_run_once`).  The second part rests on what the arena guarantees
about its memory: the blocks returned since are apart from the object's.
-/
import JitFusion.ArenaLife

namespace JitFusion
namespace World

/-! ## 1. Constructions nest -/

/-- **The events of an epoch.**  A block is returned; or a block is returned, its constructor
uses the arena, and its object is complete before anything else happens. -/
inductive Nested : List Event → Prop
  | nil : Nested []
  | returned {b l} (h : Nested l) : Nested (.returned b :: l)
  | completed {b fn l l'} (h : Nested l) (h' : Nested l') :
      Nested (.returned b :: (l ++ .completed ⟨b.addr, fn⟩ :: l'))

theorem Nested.append {l l' : List Event} (h : Nested l) (h' : Nested l') : Nested (l ++ l') := by
  induction h with
  | nil => exact h'
  | returned h ih => exact .returned ih
  | completed h h₂ ih ih₂ =>
    rw [List.cons_append, List.append_assoc, List.cons_append]
    exact .completed h ih₂

/-- Using the arena neither destroys nor frees. -/
theorem Nested.use_only {l : List Event} (h : Nested l) : ∀ e ∈ l,
    (∃ b, e = .returned b) ∨ ∃ f, e = .completed f := by
  induction h with
  | nil => simp
  | returned h ih =>
    intro e he
    rcases List.mem_cons.mp he with rfl | he
    · exact .inl ⟨_, rfl⟩
    · exact ih e he
  | completed h h' ih ih' =>
    intro e he
    rcases List.mem_cons.mp he with rfl | he
    · exact .inl ⟨_, rfl⟩
    rcases List.mem_append.mp he with he | he
    · exact ih e he
    rcases List.mem_cons.mp he with rfl | he
    · exact .inr ⟨_, rfl⟩
    · exact ih' e he

/-- A complete object has its block before it. -/
theorem Nested.block_before {l : List Event} (h : Nested l) : ∀ f ∈ completions l,
    ∃ l₀ b l₁, l = l₀ ++ .returned b :: l₁ ∧ b.addr = f.obj ∧ .completed f ∈ l₁ := by
  induction h with
  | nil => simp
  | @returned b l h ih =>
    intro f hf
    rcases ih f hf with ⟨l₀, b', l₁, rfl, hb, hmem⟩
    exact ⟨.returned b :: l₀, b', l₁, rfl, hb, hmem⟩
  | @completed b fn l l' h h' ih ih' =>
    intro f hf
    have hsplit : completions (.returned b :: (l ++ .completed ⟨b.addr, fn⟩ :: l'))
        = completions l ++ ⟨b.addr, fn⟩ :: completions l' := by
      simp
    rw [hsplit] at hf
    rcases List.mem_append.mp hf with hf | hf
    · rcases ih f hf with ⟨l₀, b', l₁, rfl, hb, hmem⟩
      exact ⟨.returned b :: l₀, b', l₁ ++ .completed ⟨b.addr, fn⟩ :: l', by simp, hb,
        List.mem_append_left _ hmem⟩
    rcases List.mem_cons.mp hf with rfl | hf
    · exact ⟨[], b, l ++ .completed ⟨b.addr, fn⟩ :: l', rfl, rfl, by simp⟩
    · rcases ih' f hf with ⟨l₀, b', l₁, rfl, hb, hmem⟩
      exact ⟨.returned b :: (l ++ .completed ⟨b.addr, fn⟩ :: l₀), b', l₁, by simp, hb, hmem⟩

/-- Complete objects are at addresses of different blocks. -/
theorem Nested.subperm {l : List Event} (h : Nested l) :
    ((completions l).map Finalizer.obj).Subperm ((blocksOf l).map Block.addr) := by
  induction h with
  | nil => exact List.Subperm.refl _
  | @returned b l h ih => exact ih.trans (List.sublist_cons_self _ _).subperm
  | @completed b fn l l' h h' ih ih' =>
    have hc : completions (.returned b :: (l ++ .completed ⟨b.addr, fn⟩ :: l'))
        = completions l ++ ⟨b.addr, fn⟩ :: completions l' := by
      simp
    have hb : blocksOf (.returned b :: (l ++ .completed ⟨b.addr, fn⟩ :: l'))
        = b :: (blocksOf l ++ blocksOf l') := by
      simp
    rw [hc, hb]
    simp only [List.map_append, List.map_cons]
    exact List.perm_middle.subperm.trans ((List.subperm_cons _).mpr (ih.append ih'))

/-! ## 2. What a world records -/

/-- The recorded finalizers are the completions of the epoch, which nests. -/
structure Recorded (w : World) : Prop where
  nested : Nested w.epoch
  pending : w.arena.finalizers = completions w.epoch

/-- What a use of the arena adds. -/
def Adds (w w' : World) : Prop :=
  w'.past = w.past ∧ ∃ l, w'.epoch = w.epoch ++ l ∧ Nested l ∧
    w'.arena.finalizers = w.arena.finalizers ++ completions l

theorem Adds.refl (w : World) : w.Adds w := ⟨rfl, [], by simp, .nil, by simp⟩

theorem Adds.trans {w w' w'' : World} (h : w.Adds w') (h' : w'.Adds w'') : w.Adds w'' := by
  rcases h with ⟨hpast, l, hl, hn, hf⟩
  rcases h' with ⟨hpast', l', hl', hn', hf'⟩
  refine ⟨hpast'.trans hpast, l ++ l', ?_, hn.append hn', ?_⟩
  · rw [hl', hl, List.append_assoc]
  · rw [hf', hf, completions_append, List.append_assoc]

/-- Nothing, or one block; finalizers are left alone. -/
theorem allocate_adds (w : World) (size alignment : Nat) (malloc : Option Nat) :
    (w.allocate size alignment malloc).2.past = w.past ∧
    (w.allocate size alignment malloc).2.arena.finalizers = w.arena.finalizers ∧
    (w.allocate size alignment malloc).2.epoch = w.epoch ++
      ((w.allocate size alignment malloc).1.toList.map fun p =>
        .returned ⟨p, size, alignment⟩) := by
  have hfin := Arena.allocate_finalizers w.arena size alignment malloc
  unfold World.allocate
  cases hres : w.arena.allocate size alignment malloc with
  | mk p a =>
    rw [hres] at hfin
    cases p with
    | none => exact ⟨rfl, hfin, by simp⟩
    | some p => exact ⟨rfl, hfin, rfl⟩

mutual

/-- **A use of the arena adds a nested list of events**, by induction over the call and the calls
of its constructor: the bracket of a `Create` opens with its block and closes when its object is
complete. -/
theorem use_adds : ∀ (u : Use) (w : World), w.Adds (w.use u)
  | .allocate size alignment malloc, w => by
    rw [World.use]
    rcases allocate_adds w size alignment malloc with ⟨hpast, hfin, hepoch⟩
    refine ⟨hpast, _, hepoch, ?_, ?_⟩
    · cases (w.allocate size alignment malloc).1 with
      | none => exact .nil
      | some p => exact .returned .nil
    · rw [hfin]
      cases (w.allocate size alignment malloc).1 <;> simp
  | .create type malloc constructor ending, w => by
    rw [World.use, World.create]
    rcases allocate_adds w type.size type.alignment malloc with ⟨hpast, hfin, hepoch⟩
    cases hres : w.allocate type.size type.alignment malloc with
    | mk mem w' =>
      rw [hres] at hpast hfin hepoch
      cases mem with
      | none => exact ⟨hpast, [], by simpa using hepoch, .nil, by simpa using hfin⟩
      | some mem =>
        rcases uses_adds constructor w' with ⟨hpast', l, hl, hn, hf⟩
        have hopen : ((w'.uses constructor).past = w.past) ∧ (w'.uses constructor).epoch
            = w.epoch ++ (.returned ⟨mem, type.size, type.alignment⟩ :: l) := by
          refine ⟨hpast'.trans hpast, ?_⟩
          rw [hl, hepoch]
          simp
        have hnone : w.Adds (w'.uses constructor) := by
          refine ⟨hopen.1, _, hopen.2, .returned hn, ?_⟩
          rw [hf, hfin, completions_returned]
        cases ending with
        | constructorThrows => exact hnone
        | emplaceThrows => exact hnone
        | completes =>
          simp only [World.complete]
          split
          · exact hnone
          · refine ⟨hopen.1, .returned ⟨mem, type.size, type.alignment⟩ ::
              (l ++ [.completed ⟨mem, type.id⟩]), ?_, .completed hn .nil, ?_⟩
            · simp [hopen.2]
            · simp only [Arena.emplaceFinalizer, hf, completions_returned, completions_append,
                completions_completed, completions_nil, List.append_assoc]
              rw [show w'.arena.finalizers = _ from hfin]

theorem uses_adds : ∀ (us : List Use) (w : World), w.Adds (w.uses us)
  | [], w => by
    rw [World.uses]
    exact Adds.refl w
  | u :: us, w => by
    rw [World.uses]
    have hu := use_adds u w
    exact hu.trans (uses_adds us (w.use u))

end

theorem Recorded.adds {w w' : World} (h : w.Recorded) (ha : w.Adds w') : w'.Recorded := by
  rcases ha with ⟨-, l, hl, hn, hf⟩
  refine ⟨?_, ?_⟩
  · rw [hl]
    exact h.nested.append hn
  · rw [hf, h.pending, hl, completions_append]

/-- With an object to destroy there is a chunk, so `Reset` does not return early. -/
theorem Recorded.chunks_ne_nil {w : World} (h : w.Recorded) (hs : w.Sound)
    (hne : w.arena.finalizers ≠ []) : w.arena.chunks ≠ [] := by
  intro hnil
  rw [h.pending] at hne
  rcases List.exists_mem_of_ne_nil _ hne with ⟨f, hf⟩
  rcases h.nested.block_before f hf with ⟨l₀, b, l₁, heq, -, -⟩
  have hb : b ∈ blocksOf w.epoch := by rw [heq]; simp
  rcases hs.inside b hb with ⟨c, hc, -⟩
  simp [hnil] at hc

/-- Events that give memory back. -/
def Releases (e : Event) : Prop := (∃ c, e = .freed c) ∨ ∃ c, e = .recycled c

/-- **A `Reset` destroys what is complete, the last first**, and then gives memory back. -/
theorem Recorded.reset {w : World} (h : w.Recorded) (hs : w.Sound) :
    ∃ released, w.reset.past = w.log ++ (completions w.epoch).reverse.map .destroyed ++ released ∧
      (∀ e ∈ released, Releases e) ∧ w.reset.Recorded := by
  cases hchunks : w.arena.chunks with
  | nil =>
    have hnone : w.arena.finalizers = [] := by
      by_contra hne
      exact h.chunks_ne_nil hs hne hchunks
    have hreset : w.arena.reset = ([], w.arena) := by
      unfold Arena.reset
      rw [hchunks]
    refine ⟨[], ?_, by simp, .nil, ?_⟩
    · rw [World.reset, hreset, ← h.pending, hnone]
      simp
    · rw [World.reset, hreset]
      exact hnone
  | cons first rest =>
    have hevents : w.arena.reset.1 = (completions w.epoch).reverse.map .destroyed ++
        ((if rest.length > 0 then (rest.map .freed) else []) ++ [.recycled first]) := by
      unfold Arena.reset
      rw [hchunks, ← h.pending, ← List.append_assoc]
      simp only [Arena.runFinalizers, Arena.releaseChunks, hchunks, if_true, List.tail_cons]
    have hpast : w.reset.past = w.log ++ w.arena.reset.1 := rfl
    refine ⟨(if rest.length > 0 then rest.map .freed else []) ++ [.recycled first], ?_, ?_,
      .nil, ?_⟩
    · rw [hpast, hevents, List.append_assoc]
    · intro e he
      rcases List.mem_append.mp he with he | he
      · split at he
        · rcases List.mem_map.mp he with ⟨c, -, rfl⟩
          exact .inl ⟨c, rfl⟩
        · cases he
      · rw [List.mem_singleton.mp he]
        exact .inr ⟨first, rfl⟩
    · have harena : w.reset.arena = _ := Arena.reset_of_cons hchunks
      rw [harena]
      rfl

/-- **So does the end of the arena.** -/
theorem Recorded.destroy {w : World} (h : w.Recorded) :
    ∃ released, w.arena.destroy = (completions w.epoch).reverse.map .destroyed ++ released ∧
      ∀ e ∈ released, Releases e := by
  refine ⟨w.arena.chunks.map .freed, ?_, ?_⟩
  · simp only [Arena.destroy, Arena.runFinalizers, Arena.releaseChunks, h.pending]
    rfl
  · intro e he
    rcases List.mem_map.mp he with ⟨c, -, rfl⟩
    exact .inl ⟨c, rfl⟩

/-! ## 3. No byte of an object is given away before its destruction -/

/-- The event frees bytes of the region, or makes them available, or hands them out. -/
def Reuses (r : Region) : Event → Prop
  | .returned b => ¬ b.region.Apart r
  | .freed c => ¬ c.region.Apart r
  | .recycled c => ¬ c.region.Apart r
  | .completed _ => False
  | .destroyed _ => False

/-- What precedes the destruction of an object: its block is returned, then it is complete, and
since its block was returned no byte of it was given away. -/
def Protected (seen : List Event) (f : Finalizer) : Prop :=
  ∃ l₀ b l₁, seen = l₀ ++ .returned b :: l₁ ∧ b.addr = f.obj ∧ .completed f ∈ l₁ ∧
    ∀ e ∈ l₁, ¬ Reuses b.region e

/-- Every destruction in the list, read after `seen`, is of a protected object. -/
def Guarded (seen : List Event) : List Event → Prop
  | [] => True
  | e :: l => (∀ f, e = .destroyed f → Protected seen f) ∧ Guarded (seen ++ [e]) l

theorem guarded_append {l l' : List Event} : ∀ {seen : List Event},
    Guarded seen (l ++ l') ↔ Guarded seen l ∧ Guarded (seen ++ l) l' := by
  induction l with
  | nil => simp [Guarded]
  | cons e l ih =>
    intro seen
    simp only [List.cons_append, Guarded, ih, and_assoc, List.append_assoc, List.nil_append]

/-- Lists without destructions are guarded. -/
theorem guarded_of_no_destroyed {l : List Event} (h : ∀ f, Event.destroyed f ∉ l) :
    ∀ seen, Guarded seen l := by
  induction l with
  | nil => exact fun _ => trivial
  | cons e l ih =>
    intro seen
    refine ⟨fun f he => absurd (he ▸ List.mem_cons_self) (h f), ?_⟩
    exact ih (fun f hf => h f (List.mem_cons_of_mem _ hf)) _

theorem Guarded.split {l : List Event} : ∀ {seen : List Event}, Guarded seen l →
    ∀ l₁ f l₂, l = l₁ ++ .destroyed f :: l₂ → Protected (seen ++ l₁) f := by
  intro seen h l₁ f l₂ hl
  rw [hl, guarded_append] at h
  exact h.2.1 f rfl

theorem Releases.ne_destroyed {e : Event} (h : Releases e) (f : Finalizer) : e ≠ .destroyed f := by
  rcases h with ⟨c, rfl⟩ | ⟨c, rfl⟩ <;> simp

/-- **At the end of an epoch every complete object is protected**, also while the destructors
run: since its block was returned there were only other blocks, apart from it, completions and
destructions. -/
theorem Recorded.protected {w : World} (h : w.Recorded) (hs : w.Sound) {f : Finalizer}
    (hf : f ∈ completions w.epoch) (destroyed : List Finalizer) :
    Protected (w.log ++ destroyed.map .destroyed) f := by
  rcases h.nested.block_before f hf with ⟨l₀, b, l₁, heq, hb, hmem⟩
  refine ⟨w.past ++ l₀, b, l₁ ++ destroyed.map .destroyed, ?_, hb,
    List.mem_append_left _ hmem, ?_⟩
  · simp [World.log, heq]
  intro e he
  rcases List.mem_append.mp he with he | he
  · rcases h.nested.use_only e (by rw [heq]; simp [he]) with ⟨b', rfl⟩ | ⟨f', rfl⟩
    · have hapart := hs.apart
      rw [heq, blocksOf_append, blocksOf_returned, List.map_append, List.pairwise_append,
        List.map_cons, List.pairwise_cons] at hapart
      have hb' : b' ∈ blocksOf l₁ := List.mem_filterMap.mpr ⟨.returned b', he, rfl⟩
      exact fun hnot => hnot (hapart.2.1.1 _ (List.mem_map_of_mem hb')).symm
    · exact id
  · rcases List.mem_map.mp he with ⟨f', -, rfl⟩
    exact id

/-- So the destructions that end an epoch are guarded. -/
theorem Recorded.guarded {w : World} (h : w.Recorded) (hs : w.Sound) (fs : List Finalizer) :
    ∀ destroyed : List Finalizer, (∀ f ∈ fs, f ∈ completions w.epoch) →
      Guarded (w.log ++ destroyed.map .destroyed) (fs.map .destroyed) := by
  induction fs with
  | nil => exact fun _ _ => trivial
  | cons f fs ih =>
    intro destroyed hsub
    refine ⟨?_, ?_⟩
    · rintro f' ⟨⟩
      exact h.protected hs (hsub f List.mem_cons_self) destroyed
    · have hrest := ih (destroyed ++ [f]) fun g hg => hsub g (List.mem_cons_of_mem _ hg)
      simpa using hrest

/-- The invariant of a run. -/
structure Kept (w : World) : Prop where
  sound : w.Sound
  recorded : w.Recorded
  guarded : Guarded [] w.past

/-- What a world says so far and the destructions and releases that end its epoch. -/
theorem Kept.closed {w : World} (h : w.Kept) {released : List Event}
    (hr : ∀ e ∈ released, Releases e) :
    Guarded [] (w.log ++ (completions w.epoch).reverse.map .destroyed ++ released) := by
  have hepoch : Guarded ([] ++ w.past) w.epoch := by
    refine guarded_of_no_destroyed (fun f hf => ?_) _
    rcases h.recorded.nested.use_only _ hf with ⟨b, hb⟩ | ⟨g, hg⟩
    · cases hb
    · cases hg
  have hdestroyed := h.recorded.guarded h.sound (completions w.epoch).reverse []
    fun f hf => List.mem_reverse.mp hf
  rw [guarded_append, guarded_append]
  refine ⟨⟨guarded_append.mpr ⟨h.guarded, hepoch⟩, by simpa using hdestroyed⟩, ?_⟩
  exact guarded_of_no_destroyed (fun f hf => (hr _ hf).ne_destroyed f rfl) _

theorem kept_start (minChunkSize : Nat) : (start minChunkSize).Kept :=
  ⟨sound_start minChunkSize, ⟨.nil, rfl⟩, trivial⟩

theorem Kept.call {w : World} {c : Call} (h : w.Kept) (hfair : w.CallFair c) : (w.call c).Kept := by
  have hsound := h.sound.call hfair
  cases c with
  | use u =>
    have hadds := use_adds u w
    exact ⟨hsound, h.recorded.adds hadds, by rw [World.call, hadds.1]; exact h.guarded⟩
  | reset =>
    rcases h.recorded.reset h.sound with ⟨released, hpast, hrel, hrec⟩
    exact ⟨hsound, hrec, by rw [World.call, hpast]; exact h.closed hrel⟩

theorem kept_afterCalls {minChunkSize : Nat} {calls : List Call} (hfair : Fair minChunkSize calls) :
    ∀ pre, pre <+: calls → (afterCalls minChunkSize pre).Kept :=
  Machine.run_inv_of_ok (kept_start minChunkSize) (fun _ _ hw hc => hw.call hc) hfair

/-! ## 4. Finalizers run exactly once -/

/-- The objects completed since the last `Reset`, in the order of their completion. -/
def pending (minChunkSize : Nat) (calls : List Call) : List Finalizer :=
  completions (afterCalls minChunkSize calls).epoch

/-- **Every object is destroyed exactly once, in reverse order, before its memory is given
away.**  Only a `Reset` and the end of the arena run destructors, and they run those of the
objects completed since the last `Reset`, which are different objects, the last one first. -/
theorem finalizers_run_once {minChunkSize : Nat} {calls : List Call}
    (hfair : Fair minChunkSize calls) :
    (∀ pre u, pre ++ [.use u] <+: calls → ∃ l,
      (afterCalls minChunkSize (pre ++ [.use u])).log = (afterCalls minChunkSize pre).log ++ l ∧
        ∀ e ∈ l, (∃ b, e = .returned b) ∨ ∃ f, e = .completed f) ∧
    (∀ pre, pre ++ [.reset] <+: calls → ∃ released,
      (afterCalls minChunkSize (pre ++ [.reset])).log = (afterCalls minChunkSize pre).log ++
        (pending minChunkSize pre).reverse.map .destroyed ++ released ∧
        ∀ e ∈ released, Releases e) ∧
    (∃ released, life minChunkSize calls = (afterCalls minChunkSize calls).log ++
      (pending minChunkSize calls).reverse.map .destroyed ++ released ∧
        ∀ e ∈ released, Releases e) ∧
    (∀ pre, pre <+: calls → ((pending minChunkSize pre).map Finalizer.obj).Nodup) ∧
    ∀ seen f rest, life minChunkSize calls = seen ++ .destroyed f :: rest → Protected seen f := by
  have hkept := kept_afterCalls hfair
  have hend := hkept calls (List.prefix_refl _)
  rcases hend.recorded.destroy with ⟨released, hdestroy, hrel⟩
  have hlife : life minChunkSize calls = (afterCalls minChunkSize calls).log ++
      (pending minChunkSize calls).reverse.map .destroyed ++ released := by
    rw [life, hdestroy, List.append_assoc]
    rfl
  refine ⟨?_, ?_, ⟨released, hlife, hrel⟩, ?_, ?_⟩
  · intro pre u _
    rcases use_adds u (afterCalls minChunkSize pre) with ⟨hpast, l, hl, hn, -⟩
    refine ⟨l, ?_, hn.use_only⟩
    rw [afterCalls_append, World.call, World.log, hpast, hl, ← List.append_assoc]
    rfl
  · intro pre hpre
    have hw := hkept pre ((List.prefix_append pre [Call.reset]).trans hpre)
    rcases hw.recorded.reset hw.sound with ⟨released, hpast, hrel, -⟩
    refine ⟨released, ?_, hrel⟩
    rw [afterCalls_append, World.call, World.log]
    exact (List.append_nil _).trans hpast
  · intro pre hpre
    have hw := hkept pre hpre
    rcases hw.recorded.nested.subperm with ⟨l, hperm, hsub⟩
    have haddr : ((blocksOf (afterCalls minChunkSize pre).epoch).map Block.addr).Nodup := by
      have hapart := List.pairwise_map.mp hw.sound.apart
      refine List.pairwise_map.mpr (hapart.imp_of_mem ?_)
      intro b b' hb hb' h
      exact h.base_ne (hw.sound.nonempty b hb) (hw.sound.nonempty b' hb')
    exact hperm.nodup_iff.mp (haddr.sublist hsub)
  · intro seen f rest hsplit
    have hguarded := hend.closed hrel
    have hseen := hguarded.split seen f rest (by rw [← hsplit, hlife]; rfl)
    simpa using hseen

/-- An object whose constructor creates another one, a third one, and one whose constructor
throws. -/
def nestedObjects : List Call :=
  [.use (.create ⟨0, 8, 8, false⟩ (some 4096) [.create ⟨1, 16, 8, false⟩ none [] .completes]
      .completes),
    .use (.create ⟨2, 4, 4, false⟩ none [] .completes),
    .use (.create ⟨3, 4, 4, false⟩ none [] .constructorThrows)]

theorem fair_nestedObjects : Fair 64 (nestedObjects ++ [.reset]) := by
  have hinner : ∀ mem w', (afterCalls 64 []).allocate 8 8 (some 4096) = (some mem, w') →
      w'.UsesFair [.create ⟨1, 16, 8, false⟩ none [] .completes] := by
    rintro mem w' ⟨⟩
    exact ⟨⟨⟨⟨3, by decide⟩, fun _ => by decide, fun _ _ => ⟨by decide, nofun⟩⟩,
      fun _ _ _ => trivial⟩, trivial⟩
  have houter : Fair 64 (nestedObjects.take 1) := by
    refine fair_append (fair_nil 64) ⟨⟨⟨3, by decide⟩, fun _ => by decide, fun _ _ =>
      ⟨by decide, ?_⟩⟩, hinner⟩
    rintro p ⟨⟩
    exact ⟨by decide, by decide, by decide⟩
  have hsecond : Fair 64 (nestedObjects.take 2) :=
    fair_append houter ⟨⟨⟨2, by decide⟩, fun _ => by decide, fun _ _ => ⟨by decide, nofun⟩⟩,
      fun _ _ _ => trivial⟩
  have hthrown : Fair 64 nestedObjects :=
    fair_append hsecond ⟨⟨⟨2, by decide⟩, fun _ => by decide, fun _ _ => ⟨by decide, nofun⟩⟩,
      fun _ _ _ => trivial⟩
  exact fair_append hthrown trivial

/-- The inner object is complete first, so it is destroyed last. -/
theorem finalizers_run_once_nested : ∃ released,
    (afterCalls 64 (nestedObjects ++ [.reset])).log = (afterCalls 64 nestedObjects).log ++
      [.destroyed ⟨4120, 2⟩, .destroyed ⟨4096, 0⟩, .destroyed ⟨4104, 1⟩] ++ released ∧
      ∀ e ∈ released, Releases e :=
  (finalizers_run_once fair_nestedObjects).2.1 nestedObjects (List.prefix_refl _)

end World
end JitFusion
