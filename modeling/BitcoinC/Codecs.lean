import Mathlib.Tactic.Common

/-!
# Byte codecs

A codec is a writer and a reader of bytes that are inverse to each other on the
values the format can carry: what is written is read back, and what is read was
written that way.
-/

namespace Codecs

variable {α β γ : Type}

/-- A reader takes what it needs from the front of the input, or fails. -/
abbrev Reader (α : Type) := StateT (List UInt8) Option α

lemma bind_eq_some_iff (p : Reader α) (f : α → Reader β) (bs rest : List UInt8) (b : β) :
    (p >>= f) bs = some (b, rest) ↔ ∃ a mid, p bs = some (a, mid) ∧ f a mid = some (b, rest) := by
  constructor
  · intro h
    obtain ⟨⟨a, mid⟩, hp, hf⟩ := Option.bind_eq_some_iff.mp h
    exact ⟨a, mid, hp, hf⟩
  · rintro ⟨a, mid, hp, hf⟩
    exact Option.bind_eq_some_iff.mpr ⟨(a, mid), hp, hf⟩

lemma pure_eq_some_iff (a b : α) (bs rest : List UInt8) :
    (pure a : Reader α) bs = some (b, rest) ↔ a = b ∧ bs = rest := by
  constructor
  · intro h
    cases h
    exact ⟨rfl, rfl⟩
  · rintro ⟨rfl, rfl⟩
    rfl

structure Codec (α : Type) where
  dom : α → Prop
  enc : α → List UInt8
  dec : Reader α
  dec_enc : ∀ a rest, dom a → dec (enc a ++ rest) = some (a, rest)
  enc_dec : ∀ bs a rest, dec bs = some (a, rest) → dom a ∧ bs = enc a ++ rest

lemma Codec.split (c : Codec α) {a b : α} {r s : List UInt8} (ha : c.dom a) (hb : c.dom b)
    (h : c.enc a ++ r = c.enc b ++ s) : a = b ∧ r = s := by
  have hread := c.dec_enc a r ha
  rw [h, c.dec_enc b s hb] at hread
  cases hread
  exact ⟨rfl, rfl⟩

lemma Codec.enc_inj (c : Codec α) {a b : α} (ha : c.dom a) (hb : c.dom b) (h : c.enc a = c.enc b) :
    a = b :=
  (c.split (r := []) (s := []) ha hb (congrArg (· ++ []) h)).1

lemma Codec.bind_dec (c : Codec α) (f : α → Reader β) (a : α) (rest : List UInt8) (h : c.dom a) :
    (c.dec >>= f) (c.enc a ++ rest) = f a rest := by
  have hread := c.dec_enc a rest h
  exact congrArg (fun x => Option.bind x fun y => f y.1 y.2) hread

lemma Codec.flatMap_inj (c : Codec α) (hpos : ∀ a, c.enc a ≠ []) {as bs : List α}
    (has : ∀ a ∈ as, c.dom a) (hbs : ∀ b ∈ bs, c.dom b) (h : as.flatMap c.enc = bs.flatMap c.enc) :
    as = bs := by
  induction as generalizing bs with
  | nil =>
    cases bs with
    | nil => rfl
    | cons b bs => exact absurd (List.append_eq_nil_iff.mp h.symm).1 (hpos b)
  | cons a as ih =>
    cases bs with
    | nil => exact absurd (List.append_eq_nil_iff.mp h).1 (hpos a)
    | cons b bs =>
      rw [List.forall_mem_cons] at has hbs
      obtain ⟨rfl, hrest⟩ := c.split has.1 hbs.1 h
      rw [ih has.2 hbs.2 hrest]

/-- A reader that accepts more than the encoding, but nothing shorter. -/
structure Lenient (p : Reader α) (c : Codec α) : Prop where
  accepts : ∀ bs r, c.dec bs = some r → p bs = some r
  longer : ∀ bs a rest, p bs = some (a, rest) → c.dom a ∧ (c.enc a).length + rest.length ≤ bs.length

lemma lenient_dec (c : Codec α) : Lenient c.dec c where
  accepts := fun _ _ h => h
  longer := by
    intro bs a rest h
    obtain ⟨hdom, hbs⟩ := c.enc_dec bs a rest h
    exact ⟨hdom, by simp [hbs]⟩

lemma Lenient.of_eq {p q : Reader α} {c : Codec α} (h : Lenient p c) (hq : q = p) :
    Lenient q c := hq ▸ h

lemma Lenient.read_enc {p : Reader α} {c : Codec α} (h : Lenient p c) (a : α) (rest : List UInt8)
    (ha : c.dom a) : p (c.enc a ++ rest) = some (a, rest) :=
  h.accepts _ _ (c.dec_enc a rest ha)

lemma Lenient.exact_iff {p : Reader α} {c : Codec α} (h : Lenient p c) {bs rest : List UInt8}
    {a : α} (hread : p bs = some (a, rest)) : bs = c.enc a ++ rest ↔ c.dec bs = some (a, rest) := by
  constructor
  · intro hbs
    rw [hbs]
    exact c.dec_enc a rest (h.longer bs a rest hread).1
  · exact fun hdec => (c.enc_dec bs a rest hdec).2

def const (a : α) : Codec α where
  dom := fun b => b = a
  enc := fun _ => []
  dec := pure a
  dec_enc := by
    rintro b rest rfl
    rfl
  enc_dec := by
    intro bs b rest h
    obtain ⟨rfl, rfl⟩ := (pure_eq_some_iff a b bs rest).mp h
    exact ⟨rfl, rfl⟩

def readByte : Reader UInt8
  | [] => none
  | b :: rest => some (b, rest)

def byte : Codec UInt8 where
  dom := fun _ => True
  enc := fun b => [b]
  dec := readByte
  dec_enc := fun _ _ _ => rfl
  enc_dec := by
    intro bs b rest h
    cases bs with
    | nil => cases h
    | cons a bs =>
      cases h
      exact ⟨trivial, rfl⟩

def readFixed (n : Nat) : Reader (List UInt8) := fun bs =>
  if bs.length < n then none else some (bs.take n, bs.drop n)

def fixed (n : Nat) : Codec (List UInt8) where
  dom := fun bytes => bytes.length = n
  enc := id
  dec := readFixed n
  dec_enc := by
    rintro bytes rest rfl
    simp [readFixed]
  enc_dec := by
    intro bs bytes rest h
    by_cases hlength : bs.length < n
    · simp [readFixed, hlength] at h
    · simp only [readFixed, hlength, if_false, Option.some.injEq, Prod.mk.injEq] at h
      obtain ⟨rfl, rfl⟩ := h
      exact ⟨List.length_take_of_le (by omega), (List.take_append_drop n bs).symm⟩

def readSeq (p : Reader α) (q : α → Reader β) : Reader (α × β) := do
  let a ← p
  let b ← q a
  pure (a, b)

lemma readSeq_eq_some_iff (p : Reader α) (q : α → Reader β) (bs rest : List UInt8) (x : α × β) :
    readSeq p q bs = some (x, rest) ↔
      ∃ mid, p bs = some (x.1, mid) ∧ q x.1 mid = some (x.2, rest) := by
  rw [readSeq, bind_eq_some_iff]
  constructor
  · rintro ⟨a, mid, hp, h⟩
    obtain ⟨b, last, hq, h⟩ := (bind_eq_some_iff _ _ _ _ _).mp h
    obtain ⟨rfl, rfl⟩ := (pure_eq_some_iff _ _ _ _).mp h
    exact ⟨mid, hp, hq⟩
  · rintro ⟨mid, hp, hq⟩
    exact ⟨x.1, mid, hp, (bind_eq_some_iff _ _ _ _ _).mpr ⟨x.2, rest, hq, rfl⟩⟩

def seq (c : Codec α) (f : α → Codec β) : Codec (α × β) where
  dom := fun x => c.dom x.1 ∧ (f x.1).dom x.2
  enc := fun x => c.enc x.1 ++ (f x.1).enc x.2
  dec := readSeq c.dec fun a => (f a).dec
  dec_enc := by
    intro x rest hx
    rw [List.append_assoc]
    exact (readSeq_eq_some_iff _ _ _ _ _).mpr
      ⟨_, c.dec_enc x.1 _ hx.1, (f x.1).dec_enc x.2 rest hx.2⟩
  enc_dec := by
    intro bs x rest h
    obtain ⟨mid, hfirst, hsecond⟩ := (readSeq_eq_some_iff _ _ _ _ _).mp h
    obtain ⟨hx, hbs⟩ := c.enc_dec _ _ _ hfirst
    obtain ⟨hy, hmid⟩ := (f x.1).enc_dec _ _ _ hsecond
    exact ⟨⟨hx, hy⟩, by rw [hbs, hmid, List.append_assoc]⟩

lemma Lenient.seq {p : Reader α} {c : Codec α} {q : α → Reader β} {f : α → Codec β}
    (hp : Lenient p c) (hq : ∀ a, Lenient (q a) (f a)) : Lenient (readSeq p q) (seq c f) where
  accepts := by
    rintro bs ⟨x, rest⟩ h
    obtain ⟨mid, hfirst, hsecond⟩ := (readSeq_eq_some_iff _ _ _ _ _).mp h
    exact (readSeq_eq_some_iff _ _ _ _ _).mpr
      ⟨mid, hp.accepts _ _ hfirst, (hq x.1).accepts _ _ hsecond⟩
  longer := by
    intro bs x rest h
    obtain ⟨mid, hfirst, hsecond⟩ := (readSeq_eq_some_iff _ _ _ _ _).mp h
    obtain ⟨hx, hlength⟩ := hp.longer _ _ _ hfirst
    obtain ⟨hy, hlength'⟩ := (hq x.1).longer _ _ _ hsecond
    refine ⟨⟨hx, hy⟩, ?_⟩
    have htotal : ((Codecs.seq c f).enc x).length = (c.enc x.1).length + ((f x.1).enc x.2).length :=
      List.length_append
    omega

lemma map_eq_some_iff (p : Reader α) (make : α → β) (bs rest : List UInt8) (b : β) :
    (p >>= fun a => pure (make a)) bs = some (b, rest) ↔ ∃ a, p bs = some (a, rest) ∧
      make a = b := by
  rw [bind_eq_some_iff]
  constructor
  · rintro ⟨a, mid, hp, h⟩
    obtain ⟨rfl, rfl⟩ := (pure_eq_some_iff _ _ _ _).mp h
    exact ⟨a, hp, rfl⟩
  · rintro ⟨a, hp, rfl⟩
    exact ⟨a, rest, hp, rfl⟩

/-- `view` undoes `make`; the values of the new codec are those that `make` reaches. -/
def map (c : Codec α) (make : α → β) (view : β → α) (h : ∀ a, c.dom a → view (make a) = a) :
    Codec β where
  dom := fun b => c.dom (view b) ∧ make (view b) = b
  enc := fun b => c.enc (view b)
  dec := c.dec >>= fun a => pure (make a)
  dec_enc := by
    intro b rest hb
    exact (map_eq_some_iff _ _ _ _ _).mpr ⟨view b, c.dec_enc _ rest hb.1, hb.2⟩
  enc_dec := by
    intro bs b rest hdec
    obtain ⟨a, ha, rfl⟩ := (map_eq_some_iff _ _ _ _ _).mp hdec
    obtain ⟨hdom, hbs⟩ := c.enc_dec _ _ _ ha
    rw [h a hdom]
    exact ⟨⟨hdom, rfl⟩, hbs⟩

lemma Lenient.map {p : Reader α} {c : Codec α} (hp : Lenient p c) (make : α → β) (view : β → α)
    (h : ∀ a, c.dom a → view (make a) = a) :
    Lenient (p >>= fun a => pure (make a)) (map c make view h) where
  accepts := by
    rintro bs ⟨b, rest⟩ hdec
    obtain ⟨a, ha, rfl⟩ := (map_eq_some_iff _ _ _ _ _).mp hdec
    exact (map_eq_some_iff _ _ _ _ _).mpr ⟨a, hp.accepts _ _ ha, rfl⟩
  longer := by
    intro bs b rest hread
    obtain ⟨a, ha, rfl⟩ := (map_eq_some_iff _ _ _ _ _).mp hread
    obtain ⟨hdom, hlength⟩ := hp.longer _ _ _ ha
    show (c.dom (view (make a)) ∧ _) ∧ (c.enc (view (make a))).length + rest.length ≤ bs.length
    rw [h a hdom]
    exact ⟨⟨hdom, rfl⟩, hlength⟩

def readWhen (p : Reader α) (P : α → Prop) [DecidablePred P] : Reader α := do
  let a ← p
  if P a then pure a else failure

lemma readWhen_eq_some_iff (p : Reader α) (P : α → Prop) [DecidablePred P] (bs rest : List UInt8)
    (a : α) : readWhen p P bs = some (a, rest) ↔ p bs = some (a, rest) ∧ P a := by
  rw [readWhen, bind_eq_some_iff]
  constructor
  · rintro ⟨b, mid, hp, h⟩
    by_cases hb : P b
    · rw [if_pos hb, pure_eq_some_iff] at h
      obtain ⟨rfl, rfl⟩ := h
      exact ⟨hp, hb⟩
    · rw [if_neg hb] at h
      cases h
  · rintro ⟨hp, ha⟩
    exact ⟨a, rest, hp, by rw [if_pos ha]; rfl⟩

def restrict (c : Codec α) (P : α → Prop) [DecidablePred P] : Codec α where
  dom := fun a => c.dom a ∧ P a
  enc := c.enc
  dec := readWhen c.dec P
  dec_enc := fun a rest ha => (readWhen_eq_some_iff _ _ _ _ _).mpr ⟨c.dec_enc a rest ha.1, ha.2⟩
  enc_dec := by
    intro bs a rest h
    obtain ⟨hdec, ha⟩ := (readWhen_eq_some_iff _ _ _ _ _).mp h
    obtain ⟨hdom, hbs⟩ := c.enc_dec _ _ _ hdec
    exact ⟨⟨hdom, ha⟩, hbs⟩

def readCount (p : Reader α) : Nat → Reader (List α)
  | 0 => pure []
  | n + 1 => do
    let a ← p
    let as ← readCount p n
    pure (a :: as)

lemma readCount_zero (p : Reader α) (bs rest : List UInt8) (as : List α) :
    readCount p 0 bs = some (as, rest) ↔ as = [] ∧ bs = rest := by
  rw [readCount, pure_eq_some_iff, eq_comm]

lemma readCount_succ (p : Reader α) (n : Nat) (bs rest : List UInt8) (as : List α) :
    readCount p (n + 1) bs = some (as, rest) ↔
      ∃ a tail mid, as = a :: tail ∧ p bs = some (a, mid) ∧ readCount p n mid =
        some (tail, rest) := by
  rw [readCount, bind_eq_some_iff]
  constructor
  · rintro ⟨a, mid, hp, h⟩
    obtain ⟨tail, last, hq, h⟩ := (bind_eq_some_iff _ _ _ _ _).mp h
    obtain ⟨rfl, rfl⟩ := (pure_eq_some_iff _ _ _ _).mp h
    exact ⟨a, tail, mid, rfl, hp, hq⟩
  · rintro ⟨a, tail, mid, rfl, hp, hq⟩
    exact ⟨a, mid, hp, (bind_eq_some_iff _ _ _ _ _).mpr ⟨tail, rest, hq, rfl⟩⟩

lemma readCount_enc {p : Reader α} {c : Codec α}
    (h : ∀ a rest, c.dom a → p (c.enc a ++ rest) = some (a, rest)) (as : List α)
    (has : ∀ a ∈ as, c.dom a) (rest : List UInt8) :
    readCount p as.length (as.flatMap c.enc ++ rest) = some (as, rest) := by
  induction as with
  | nil => rfl
  | cons a as ih =>
    rw [List.forall_mem_cons] at has
    rw [List.flatMap_cons, List.append_assoc]
    exact (readCount_succ _ _ _ _ _).mpr ⟨a, as, _, rfl, h a _ has.1, ih has.2⟩

def count (c : Codec α) (n : Nat) : Codec (List α) where
  dom := fun as => as.length = n ∧ ∀ a ∈ as, c.dom a
  enc := fun as => as.flatMap c.enc
  dec := readCount c.dec n
  dec_enc := by
    rintro as rest ⟨rfl, has⟩
    exact readCount_enc c.dec_enc as has rest
  enc_dec := by
    intro bs as rest h
    induction n generalizing bs as with
    | zero =>
      obtain ⟨rfl, rfl⟩ := (readCount_zero _ _ _ _).mp h
      exact ⟨⟨rfl, by simp⟩, rfl⟩
    | succ n ih =>
      obtain ⟨a, tail, mid, rfl, ha, htail⟩ := (readCount_succ _ _ _ _ _).mp h
      obtain ⟨hdom, rfl⟩ := c.enc_dec _ _ _ ha
      obtain ⟨⟨hlength, hall⟩, rfl⟩ := ih _ _ htail
      exact ⟨⟨congrArg (· + 1) hlength, List.forall_mem_cons.mpr ⟨hdom, hall⟩⟩, by simp⟩

lemma Lenient.count {p : Reader α} {c : Codec α} (hp : Lenient p c) (n : Nat) :
    Lenient (readCount p n) (count c n) where
  accepts := by
    rintro bs ⟨as, rest⟩ h
    induction n generalizing bs as with
    | zero => exact h
    | succ n ih =>
      obtain ⟨a, tail, mid, rfl, ha, htail⟩ := (readCount_succ _ _ _ _ _).mp h
      exact (readCount_succ _ _ _ _ _).mpr ⟨a, tail, mid, rfl, hp.accepts _ _ ha, ih _ _ htail⟩
  longer := by
    intro bs as rest h
    induction n generalizing bs as with
    | zero =>
      obtain ⟨rfl, rfl⟩ := (readCount_zero _ _ _ _).mp h
      exact ⟨⟨rfl, by simp⟩, by simp [Codecs.count]⟩
    | succ n ih =>
      obtain ⟨a, tail, mid, rfl, ha, htail⟩ := (readCount_succ _ _ _ _ _).mp h
      obtain ⟨hdom, hlength⟩ := hp.longer _ _ _ ha
      obtain ⟨⟨hn, hall⟩, hlength'⟩ := ih _ _ htail
      refine ⟨⟨congrArg (· + 1) hn, List.forall_mem_cons.mpr ⟨hdom, hall⟩⟩, ?_⟩
      simp only [Codecs.count, List.flatMap_cons, List.length_append] at hlength' ⊢
      omega

def embed (c : Codec α) (make : α → β) (view : β → Option α) (h : ∀ a, view (make a) = some a)
    (hview : ∀ b a, view b = some a → make a = b) : Codec β where
  dom := fun b => ∃ a, view b = some a ∧ c.dom a
  enc := fun b => ((view b).map c.enc).getD []
  dec := c.dec >>= fun a => pure (make a)
  dec_enc := by
    rintro b rest ⟨a, ha, hdom⟩
    rw [ha]
    exact (map_eq_some_iff _ _ _ _ _).mpr ⟨a, c.dec_enc a rest hdom, hview b a ha⟩
  enc_dec := by
    intro bs b rest hdec
    obtain ⟨a, ha, rfl⟩ := (map_eq_some_iff _ _ _ _ _).mp hdec
    obtain ⟨hdom, hbs⟩ := c.enc_dec _ _ _ ha
    rw [h a]
    exact ⟨⟨a, rfl, hdom⟩, hbs⟩

lemma Lenient.embed {p : Reader α} {c : Codec α} (hp : Lenient p c) (make : α → β)
    (view : β → Option α) (h : ∀ a, view (make a) = some a)
    (hview : ∀ b a, view b = some a → make a = b) :
    Lenient (p >>= fun a => pure (make a)) (embed c make view h hview) where
  accepts := by
    rintro bs ⟨b, rest⟩ hdec
    obtain ⟨a, ha, rfl⟩ := (map_eq_some_iff _ _ _ _ _).mp hdec
    exact (map_eq_some_iff _ _ _ _ _).mpr ⟨a, hp.accepts _ _ ha, rfl⟩
  longer := by
    intro bs b rest hread
    obtain ⟨a, ha, rfl⟩ := (map_eq_some_iff _ _ _ _ _).mp hread
    obtain ⟨hdom, hlength⟩ := hp.longer _ _ _ ha
    refine ⟨⟨a, h a, hdom⟩, ?_⟩
    simpa [Codecs.embed, h a] using hlength

def never : Codec α where
  dom := fun _ => False
  enc := fun _ => []
  dec := failure
  dec_enc := fun _ _ h => h.elim
  enc_dec := by
    intro bs a rest h
    cases h

end Codecs
