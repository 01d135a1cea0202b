/-
# Byte codecs that read a prefix

A `Codec` writes values as bytes and reads them back off the front of a longer input.  Its two
laws are the two directions of a wire format:

* `decode_encode`: what was written is read back, whatever follows it;
* `decode_sound`: what is read is VALID and was written that way, so every accepted input is
  canonical.

From the laws alone: a value has one encoding and an input one reading
(`Codec.encode_append_inj`).

The codecs here are the ones a length-prefixed binary format is built from: a literal, a byte,
`n` raw bytes, an `n`-byte little-endian integer, repetitions, and the length-prefixed forms.
`Codec.read` runs one inside a parser that writes an output as it goes.
-/
import Mathlib.Data.List.Basic
import Mathlib.Tactic.Ring

namespace Wire

/-! ## 1. Little-endian integers -/

/-- The low `n` bytes of `v`, least significant first. -/
def leBytes (n v : Nat) : List UInt8 :=
  (List.range n).map fun i => UInt8.ofNat (v >>> (i * 8) &&& 0xff)

/-- Or-ing the bytes together, each shifted to its place; `k` is the place of the first. -/
def orBytes (k : Nat) (bs : List UInt8) (v : Nat) : Nat :=
  (bs.zipIdx k).foldl (fun v b => v ||| b.1.toNat <<< (b.2 * 8)) v

def leValue (bs : List UInt8) : Nat := orBytes 0 bs 0

@[simp] theorem leBytes_length (n v : Nat) : (leBytes n v).length = n := by simp [leBytes]

@[simp] theorem leBytes_zero (v : Nat) : leBytes 0 v = [] := rfl

theorem leBytes_succ (n v : Nat) :
    leBytes (n + 1) v = UInt8.ofNat (v % 256) :: leBytes n (v / 256) := by
  have hand : ∀ a : Nat, a &&& 255 = a % 256 := fun a => Nat.and_two_pow_sub_one_eq_mod a 8
  simp only [leBytes, List.range_succ_eq_map, List.map_cons, List.map_map, hand, Nat.zero_mul,
    Nat.shiftRight_zero]
  congr 1
  refine List.map_congr_left fun i _ => ?_
  have hshift : v >>> ((i + 1) * 8) = (v / 256) >>> (i * 8) := by
    rw [show (i + 1) * 8 = 8 + i * 8 by ring, Nat.shiftRight_add, Nat.shiftRight_eq_div_pow v 8]
  simp [hshift]

theorem orBytes_nil (k v : Nat) : orBytes k [] v = v := rfl

theorem orBytes_cons (k : Nat) (b : UInt8) (bs : List UInt8) (v : Nat) :
    orBytes k (b :: bs) v = orBytes (k + 1) bs (v ||| b.toNat <<< (k * 8)) := rfl

/-- The bytes or-ed so far come out in front. -/
theorem orBytes_eq_or (bs : List UInt8) (k v : Nat) : orBytes k bs v = v ||| orBytes k bs 0 := by
  induction bs generalizing k v with
  | nil => simp [orBytes_nil]
  | cons b bs ih =>
    rw [orBytes_cons, orBytes_cons, ih (k + 1) (v ||| _), ih (k + 1) (0 ||| _), Nat.zero_or,
      Nat.or_assoc]

/-- Starting one place later shifts the whole value by a byte. -/
theorem orBytes_succ (bs : List UInt8) (k : Nat) :
    orBytes (k + 1) bs 0 = orBytes k bs 0 <<< 8 := by
  induction bs generalizing k with
  | nil => simp [orBytes_nil]
  | cons b bs ih =>
    rw [orBytes_cons, orBytes_cons, orBytes_eq_or, orBytes_eq_or bs (k + 1), ih (k + 1),
      Nat.shiftLeft_or_distrib, Nat.zero_or, Nat.zero_or, ← Nat.shiftLeft_add,
      show (k + 1) * 8 = k * 8 + 8 by ring]

theorem leValue_cons (b : UInt8) (bs : List UInt8) :
    leValue (b :: bs) = b.toNat + 256 * leValue bs := by
  have hb : b.toNat < 2 ^ 8 := b.toNat_lt
  rw [leValue, orBytes_cons, orBytes_eq_or, orBytes_succ, Nat.zero_or, Nat.zero_mul,
    Nat.shiftLeft_zero, Nat.or_comm, ← Nat.shiftLeft_add_eq_or_of_lt hb, Nat.shiftLeft_eq,
    ← leValue]
  ring

theorem leValue_leBytes (n v : Nat) (h : v < 256 ^ n) : leValue (leBytes n v) = v := by
  induction n generalizing v with
  | zero =>
    simp at h
    simp [h, leValue, orBytes_nil]
  | succ n ih =>
    have hdiv : v / 256 < 256 ^ n := Nat.div_lt_of_lt_mul (by rw [Nat.pow_succ'] at h; exact h)
    rw [leBytes_succ, leValue_cons, ih _ hdiv]
    simp only [UInt8.toNat_ofNat']
    omega

theorem leBytes_leValue (bs : List UInt8) : leBytes bs.length (leValue bs) = bs := by
  induction bs with
  | nil => rfl
  | cons b bs ih =>
    have hb : b.toNat < 256 := b.toNat_lt
    have hmod : (b.toNat + 256 * leValue bs) % 256 = b.toNat := by omega
    have hdiv : (b.toNat + 256 * leValue bs) / 256 = leValue bs := by omega
    rw [List.length_cons, leBytes_succ, leValue_cons, hmod, hdiv, ih, UInt8.ofNat_toNat]

theorem leValue_lt (bs : List UInt8) : leValue bs < 256 ^ bs.length := by
  induction bs with
  | nil => simp [leValue, orBytes_nil]
  | cons b bs ih =>
    have hb : b.toNat < 256 := b.toNat_lt
    rw [leValue_cons, List.length_cons, Nat.pow_succ]
    omega

/-! ## 2. Codecs -/

/-- A format for the values of `α`, read off the front of an input. -/
structure Codec (α : Type) where
  encode : α → List UInt8
  decode : List UInt8 → Option (α × List UInt8)
  Valid : α → Prop
  decode_encode : ∀ {v}, Valid v → ∀ rest, decode (encode v ++ rest) = some (v, rest)
  decode_sound : ∀ {b v rest}, decode b = some (v, rest) → Valid v ∧ b = encode v ++ rest

namespace Codec

variable {α : Type} (c : Codec α)

/-- **An input has one reading.** -/
theorem encode_append_inj {v w : α} {r s : List UInt8} (hv : c.Valid v) (hw : c.Valid w)
    (h : c.encode v ++ r = c.encode w ++ s) : v = w ∧ r = s := by
  have hd := c.decode_encode hv r
  rw [h, c.decode_encode hw s] at hd
  simp only [Option.some.injEq, Prod.mk.injEq] at hd
  exact ⟨hd.1.symm, hd.2.symm⟩

/-! ## 3. The codecs of a length-prefixed format -/

/-- One byte. -/
def byte : Codec UInt8 where
  encode v := [v]
  decode b := b.head?.map fun v => (v, b.tail)
  Valid _ := True
  decode_encode := by
    intro _ _ _
    simp
  decode_sound := by
    rintro (_ | ⟨b, bs⟩) v rest h
    · cases h
    · obtain ⟨rfl, rfl⟩ := Prod.mk.inj (Option.some.inj h)
      exact ⟨trivial, rfl⟩

/-- Exactly `n` raw bytes. -/
def bytes (n : Nat) : Codec (List UInt8) where
  encode bs := bs
  decode b := if n ≤ b.length then some (b.take n, b.drop n) else none
  Valid bs := bs.length = n
  decode_encode := by
    rintro bs rfl rest
    simp
  decode_sound := by
    intro b v rest h
    split at h
    · next hn =>
      obtain ⟨rfl, rfl⟩ := Prod.mk.inj (Option.some.inj h)
      exact ⟨by simpa using hn, (List.take_append_drop n b).symm⟩
    · cases h

/-- The bytes `bs` themselves. -/
def lit (bs : List UInt8) : Codec Unit where
  encode _ := bs
  decode b := if b.take bs.length = bs then some ((), b.drop bs.length) else none
  Valid _ := True
  decode_encode := by
    intro _ _ rest
    simp
  decode_sound := by
    intro b v rest h
    split at h
    · next hb =>
      obtain ⟨-, rfl⟩ := Prod.mk.inj (Option.some.inj h)
      have hsplit := List.take_append_drop bs.length b
      rw [hb] at hsplit
      exact ⟨trivial, hsplit.symm⟩
    · cases h

/-- An `n`-byte little-endian integer. -/
def uintLE (n : Nat) : Codec Nat where
  encode v := leBytes n v
  decode b := if n ≤ b.length then some (leValue (b.take n), b.drop n) else none
  Valid v := v < 256 ^ n
  decode_encode := by
    intro v hv rest
    simp [leValue_leBytes n v hv]
  decode_sound := by
    intro b v rest h
    split at h
    · next hn =>
      obtain ⟨rfl, rfl⟩ := Prod.mk.inj (Option.some.inj h)
      have hlen : (b.take n).length = n := by simpa using hn
      have hlt := leValue_lt (b.take n)
      have hle := leBytes_leValue (b.take n)
      rw [hlen] at hlt hle
      exact ⟨hlt, by rw [hle, List.take_append_drop]⟩
    · cases h

def encodeAll (vs : List α) : List UInt8 := (vs.map c.encode).flatten

def decodeAll : Nat → List UInt8 → Option (List α × List UInt8)
  | 0, b => some ([], b)
  | n + 1, b => do
    let (v, b) ← c.decode b
    let (vs, b) ← decodeAll n b
    return (v :: vs, b)

@[simp] theorem encodeAll_nil : c.encodeAll [] = [] := rfl

@[simp] theorem encodeAll_cons (v : α) (vs : List α) :
    c.encodeAll (v :: vs) = c.encode v ++ c.encodeAll vs := rfl

theorem decodeAll_encodeAll (rest : List UInt8) (vs : List α) (h : ∀ v ∈ vs, c.Valid v) :
    c.decodeAll vs.length (c.encodeAll vs ++ rest) = some (vs, rest) := by
  induction vs with
  | nil => rfl
  | cons v vs ih =>
    have hv := c.decode_encode (h v List.mem_cons_self) (c.encodeAll vs ++ rest)
    replace ih := ih fun w hw => h w (List.mem_cons_of_mem _ hw)
    simp [decodeAll, hv, ih]

theorem decodeAll_sound (n : Nat) {b : List UInt8} {vs : List α} {rest : List UInt8}
    (h : c.decodeAll n b = some (vs, rest)) :
    vs.length = n ∧ (∀ v ∈ vs, c.Valid v) ∧ b = c.encodeAll vs ++ rest := by
  induction n generalizing b vs with
  | zero =>
    obtain ⟨rfl, rfl⟩ := Prod.mk.inj (Option.some.inj h)
    simp
  | succ n ih =>
    simp only [decodeAll, Option.bind_eq_bind, Option.bind_eq_some_iff, Prod.exists,
      Option.pure_def, Option.some.injEq, Prod.mk.injEq] at h
    obtain ⟨v, b', hv, vs', b'', hvs, rfl, rfl⟩ := h
    obtain ⟨hvalid, rfl⟩ := c.decode_sound hv
    obtain ⟨hlen, hall, rfl⟩ := ih hvs
    refine ⟨by simp [hlen], ?_, by simp⟩
    rintro w (_ | ⟨_, hw⟩)
    · exact hvalid
    · exact hall w hw

/-- `n` values, one after another. -/
def replicate (n : Nat) : Codec (List α) where
  encode := c.encodeAll
  decode := c.decodeAll n
  Valid vs := vs.length = n ∧ ∀ v ∈ vs, c.Valid v
  decode_encode := by
    rintro vs ⟨rfl, h⟩ rest
    exact c.decodeAll_encodeAll rest vs h
  decode_sound := by
    intro b vs rest h
    obtain ⟨hlen, hall, hb⟩ := c.decodeAll_sound n h
    exact ⟨⟨hlen, hall⟩, hb⟩

/-- A value of `c`, then a value of the codec it selects. -/
def dpair {β : Type} (d : α → Codec β) : Codec (α × β) where
  encode v := c.encode v.1 ++ (d v.1).encode v.2
  decode b := do
    let (v, b) ← c.decode b
    let (w, b) ← (d v).decode b
    return ((v, w), b)
  Valid v := c.Valid v.1 ∧ (d v.1).Valid v.2
  decode_encode := by
    rintro ⟨v, w⟩ ⟨hv, hw⟩ rest
    simp [List.append_assoc, c.decode_encode hv, (d v).decode_encode hw]
  decode_sound := by
    intro b v rest h
    simp only [Option.bind_eq_bind, Option.bind_eq_some_iff, Prod.exists, Option.pure_def,
      Option.some.injEq, Prod.mk.injEq] at h
    obtain ⟨v, b', hv, w, b'', hw, rfl, rfl⟩ := h
    obtain ⟨hvalid, rfl⟩ := c.decode_sound hv
    obtain ⟨hwvalid, rfl⟩ := (d v).decode_sound hw
    exact ⟨⟨hvalid, hwvalid⟩, by simp⟩

/-- The same bytes under another name for the values; `g` must undo `f` on valid values. -/
def imap {β : Type} (f : α → β) (g : β → α) (hgf : ∀ v, c.Valid v → g (f v) = v)
    (hfg : ∀ w, f (g w) = w) : Codec β where
  encode w := c.encode (g w)
  decode b := (c.decode b).map fun r => (f r.1, r.2)
  Valid w := c.Valid (g w)
  decode_encode := by
    intro w hw rest
    simp [c.decode_encode hw, hfg]
  decode_sound := by
    intro b w rest h
    simp only [Option.map_eq_some_iff, Prod.mk.injEq] at h
    obtain ⟨⟨v, r⟩, hv, rfl, rfl⟩ := h
    obtain ⟨hvalid, rfl⟩ := c.decode_sound hv
    simp [hgf v hvalid, hvalid]

/-- Raw bytes behind their `w`-byte length. -/
def lenPrefixed (w : Nat) : Codec (List UInt8) :=
  ((uintLE w).dpair bytes).imap Prod.snd (fun bs => (bs.length, bs))
    (fun _ hv => Prod.ext hv.2 rfl) fun _ => rfl

/-- Values behind their `w`-byte count. -/
def countPrefixed (w : Nat) : Codec (List α) :=
  ((uintLE w).dpair c.replicate).imap Prod.snd (fun vs => (vs.length, vs))
    (fun _ hv => Prod.ext hv.2.1 rfl) fun _ => rfl

/-! ## 4. Reading in a parser that also writes an output -/

/-- A parser: the output written so far and the bytes not yet read. -/
abbrev Parse (σ α : Type) := StateT (σ × List UInt8) Option α

/-- Reading one value; the output is left alone. -/
def read {σ : Type} : Parse σ α := fun s =>
  (c.decode s.2).map fun r => (r.1, (s.1, r.2))

theorem read_eq_some_iff {σ : Type} {s s' : σ × List UInt8} {v : α} :
    c.read s = some (v, s') ↔ c.Valid v ∧ s'.1 = s.1 ∧ s.2 = c.encode v ++ s'.2 := by
  simp only [read, Option.map_eq_some_iff, Prod.mk.injEq, Prod.exists]
  constructor
  · rintro ⟨w, r, hd, rfl, rfl⟩
    obtain ⟨hv, hb⟩ := c.decode_sound hd
    exact ⟨hv, rfl, hb⟩
  · rintro ⟨hv, hout, hb⟩
    exact ⟨v, s'.2, by rw [hb, c.decode_encode hv], rfl, Prod.ext hout.symm rfl⟩

theorem read_encode {σ : Type} {v : α} (hv : c.Valid v) (out : σ) (rest : List UInt8) :
    c.read (out, c.encode v ++ rest) = some (v, (out, rest)) :=
  (c.read_eq_some_iff).mpr ⟨hv, rfl, rfl⟩

/-- The length-prefixed forms are read in two steps. -/
theorem read_lenPrefixed {σ : Type} (w : Nat) :
    ((lenPrefixed w).read : Parse σ (List UInt8)) =
      (uintLE w).read >>= fun n => (bytes n).read := by
  funext s
  simp only [read, lenPrefixed, imap, dpair, bind, StateT.bind]
  cases (uintLE w).decode s.2 with
  | none => rfl
  | some nb => cases hb : (bytes nb.1).decode nb.2 <;> simp [hb]

theorem read_countPrefixed {σ : Type} (w : Nat) :
    ((c.countPrefixed w).read : Parse σ (List α)) =
      (uintLE w).read >>= fun n => (c.replicate n).read := by
  funext s
  simp only [read, countPrefixed, imap, dpair, bind, StateT.bind]
  cases (uintLE w).decode s.2 with
  | none => rfl
  | some nb => cases hb : (c.replicate nb.1).decode nb.2 <;> simp [hb]

theorem read_replicate_succ {σ : Type} (n : Nat) :
    ((c.replicate (n + 1)).read : Parse σ (List α)) = do
      let v ← c.read
      let vs ← (c.replicate n).read
      return v :: vs := by
  funext s
  simp only [read, replicate, decodeAll, bind, StateT.bind]
  cases c.decode s.2 with
  | none => rfl
  | some vb =>
    cases hb : c.decodeAll n vb.2 with
    | none => simp [hb]
    | some vs =>
      simp only [hb, Option.bind_some, Option.map_some]
      rfl

end Codec

end Wire
