import BitcoinC.Codecs
import Mathlib.Data.List.TakeWhile
import Mathlib.Data.List.Infix

/-!
# Scans of a store in key order

A store is a list of records in the order of their keys, which are compared byte
by byte. A scan goes to the first record that is not below a seek key and takes
records while a test on the key holds.
-/

namespace KeyScans

open Codecs List

variable {x : UInt8} {p a b : List UInt8}

lemma append_lt_append_iff {q : List UInt8} (h : p.length = q.length) :
    p ++ a < q ++ b ↔ p < q ∨ (p = q ∧ a < b) := by
  induction p generalizing q with
  | nil =>
    obtain rfl := length_eq_zero_iff.mp h.symm
    simp
  | cons x p ih =>
    cases q with
    | nil => simp at h
    | cons y q =>
      rw [cons_append, cons_append, cons_lt_cons_iff, cons_lt_cons_iff,
        ih (Nat.succ.inj h), cons.injEq]
      tauto

lemma append_lt_append_left_iff : p ++ a < p ++ b ↔ a < b := by
  rw [append_lt_append_iff rfl]
  simp [List.lt_irrefl p]

lemma cons_lt_cons_left_iff : x :: a < x :: b ↔ a < b :=
  append_lt_append_left_iff (p := [x])

lemma lt_append_of_lt (h : a < p) (t : List UInt8) : a < p ++ t := by
  by_contra hnot
  exact List.not_lt.mpr List.le_append_left (List.lt_of_le_of_lt (List.not_lt.mp hnot) h)

lemma isPrefix_of_between {t : List UInt8} (hlow : ¬ a < p) (hhigh : a < p ++ t) : p <+: a := by
  induction p generalizing a with
  | nil => exact nil_prefix
  | cons x p ih =>
    cases a with
    | nil => exact absurd (nil_lt_cons x p) hlow
    | cons y a =>
      rw [cons_lt_cons_iff, not_or, not_and] at hlow
      rw [cons_append, cons_lt_cons_iff] at hhigh
      rcases hhigh with hlt | ⟨rfl, hrest⟩
      · exact absurd hlt hlow.1
      · exact cons_prefix_cons.mpr ⟨rfl, ih (hlow.2 rfl) hrest⟩

lemma head?_of_cons_isPrefix (h : x :: p <+: a) : a.head? = some x := by
  obtain ⟨t, rfl⟩ := h
  rfl

section

variable {α : Type}

lemma takeWhile_eq_filter {L : List α} {wanted : α → Bool}
    (h : L.Pairwise fun a b => wanted b → wanted a) : L.takeWhile wanted = L.filter wanted := by
  induction L with
  | nil => rfl
  | cons a L ih =>
    obtain ⟨hfirst, hrest⟩ := pairwise_cons.mp h
    cases hwanted : wanted a with
    | true => rw [takeWhile_cons_of_pos hwanted, filter_cons_of_pos hwanted, ih hrest]
    | false =>
      have hnone : L.filter wanted = [] := by
        refine filter_eq_nil_iff.mpr fun b hb hwb => ?_
        exact Bool.false_ne_true (hwanted.symm.trans (hfirst b hb hwb))
      rw [takeWhile_cons_of_neg (by simp [hwanted]), filter_cons_of_neg (by simp [hwanted]), hnone]

lemma filter_dropWhile {L : List α} {below wanted : α → Bool}
    (h : ∀ a ∈ L, wanted a → below a = false) : (L.dropWhile below).filter wanted =
      L.filter wanted := by
  have hnone : (L.takeWhile below).filter wanted = [] := by
    refine filter_eq_nil_iff.mpr fun a ha hwanted => ?_
    have hbelow := mem_takeWhile_imp ha
    rw [h a (takeWhile_subset below ha) hwanted] at hbelow
    exact Bool.false_ne_true hbelow
  conv_rhs => rw [← takeWhile_append_dropWhile (p := below) (l := L), filter_append, hnone]
  rfl

lemma takeWhile_eq_of_stops {L : List α} {test wanted : α → Bool} (h : ∀ a ∈ L, wanted a → test a)
    (hstop : ∀ a, L.find? (fun a => !wanted a) = some a → test a = false) :
    L.takeWhile test = L.takeWhile wanted := by
  induction L with
  | nil => rfl
  | cons a L ih =>
    obtain ⟨hfirst, hrest⟩ := forall_mem_cons.mp h
    cases hwanted : wanted a with
    | true =>
      rw [find?_cons_of_neg (by simp [hwanted])] at hstop
      rw [takeWhile_cons_of_pos hwanted, takeWhile_cons_of_pos (hfirst hwanted), ih hrest hstop]
    | false =>
      have htest := hstop a (find?_cons_of_pos (by simp [hwanted]))
      simp [hwanted, htest]

lemma mem_takeWhile_of_passes {L : List α} {test wanted : α → Bool} (h : ∀ a ∈ L, wanted a → test a)
    {r : α} (hfirst : L.find? (fun a => !wanted a) = some r) (htest : test r) :
    r ∈ L.takeWhile test := by
  induction L with
  | nil => cases hfirst
  | cons a L ih =>
    obtain ⟨ha, hrest⟩ := forall_mem_cons.mp h
    cases hwanted : wanted a with
    | true =>
      rw [find?_cons_of_neg (by simp [hwanted])] at hfirst
      rw [takeWhile_cons_of_pos (ha hwanted)]
      exact mem_cons_of_mem _ (ih hrest hfirst)
    | false =>
      rw [find?_cons_of_pos (by simp [hwanted])] at hfirst
      obtain rfl := Option.some.inj hfirst
      rw [takeWhile_cons_of_pos htest]
      exact mem_cons_self

end

/-- A key and a value. -/
abbrev Record := List UInt8 × List UInt8

structure Store where
  records : List Record
  sorted : records.Pairwise fun a b => a.1 < b.1

def Store.seek (D : Store) (key : List UInt8) : List Record := D.records.dropWhile fun r =>
    r.1 < key

lemma Store.mem_seek (D : Store) (key : List UInt8) (r : Record) :
    r ∈ D.seek key ↔ r ∈ D.records ∧ ¬ r.1 < key := by
  have hgeneral : ∀ L : List Record, L.Pairwise (fun a b => a.1 < b.1) →
      (r ∈ L.dropWhile (fun r => r.1 < key) ↔ r ∈ L ∧ ¬ r.1 < key) := by
    intro L hL
    induction L with
    | nil => simp
    | cons a L ih =>
      obtain ⟨hfirst, hrest⟩ := pairwise_cons.mp hL
      by_cases ha : a.1 < key
      · rw [dropWhile_cons_of_pos (by simpa using ha), ih hrest, mem_cons]
        constructor
        · exact fun hr => ⟨Or.inr hr.1, hr.2⟩
        · rintro ⟨rfl | hr, hnot⟩
          · exact absurd ha hnot
          · exact ⟨hr, hnot⟩
      · rw [dropWhile_cons_of_neg (by simpa using ha), mem_cons]
        refine ⟨fun hr => ⟨hr, ?_⟩, fun hr => hr.1⟩
        rcases hr with rfl | hr
        · exact ha
        · exact fun hlt => ha (List.lt_trans (hfirst r hr) hlt)
  exact hgeneral D.records D.sorted

lemma Store.seek_sorted (D : Store) (key : List UInt8) :
    (D.seek key).Pairwise fun a b => a.1 < b.1 :=
  D.sorted.sublist (dropWhile_sublist _)

structure Kind (κ ν : Type) where
  tag : UInt8
  writeKey : κ → List UInt8
  readKey : Reader κ
  writeValue : ν → List UInt8
  readValue : Reader ν
  carried : ν → Prop
  readKey_writeKey : ∀ k, (readKey (writeKey k)).map (·.1) = some k
  readValue_writeValue : ∀ v, carried v → (readValue (writeValue v)).map (·.1) = some v

section

variable {κ ν : Type} (I : Kind κ ν)

def Kind.record (k : κ) (v : ν) : Record := (I.tag :: I.writeKey k, I.writeValue v)

def Kind.key (r : Record) : Option κ :=
  match r.1 with
  | [] => none
  | first :: rest => if first = I.tag then (I.readKey rest).map (·.1) else none

def Kind.value (r : Record) : Option ν := (I.readValue r.2).map (·.1)

/-- The records under the tag are all of this kind. -/
def Kind.Only (L : List Record) : Prop :=
  ∀ r ∈ L, r.1.head? = some I.tag → ∃ k v, I.carried v ∧ r = I.record k v

def Kind.scan (test : κ → Bool) : List Record → List (κ × ν) × Bool
  | [] => ([], true)
  | r :: rs =>
    match I.key r with
    | some k =>
      if test k then
        match I.value r with
        | some v => ((k, v) :: (scan test rs).1, (scan test rs).2)
        | none => ([], false)
      else ([], true)
    | none => ([], true)

def Kind.entry (r : Record) : Option (κ × ν) := (I.key r).bind fun k => (I.value r).map fun v =>
    (k, v)

variable {I}
variable {L : List Record} {r : Record}

lemma Kind.key_record (k : κ) (v : ν) : I.key (I.record k v) = some k := by
  simp [Kind.key, Kind.record, I.readKey_writeKey k]

lemma Kind.value_record (k : κ) (v : ν) (h : I.carried v) : I.value (I.record k v) = some v :=
  I.readValue_writeValue v h

lemma Kind.entry_record (k : κ) (v : ν) (h : I.carried v) : I.entry (I.record k v) =
    some (k, v) := by
  simp [Kind.entry, Kind.key_record, Kind.value_record k v h]

lemma Kind.head?_of_key {k : κ} (h : I.key r = some k) : r.1.head? = some I.tag := by
  unfold Kind.key at h
  split at h
  · cases h
  · rename_i hr
    split_ifs at h with htag
    rw [hr, ← htag]
    rfl

lemma Kind.Only.eq_record (hL : I.Only L) (hr : r ∈ L) {k : κ} (h : I.key r = some k) :
    ∃ v, I.carried v ∧ r = I.record k v := by
  obtain ⟨k', v, hv, rfl⟩ := hL r hr (Kind.head?_of_key h)
  rw [Kind.key_record] at h
  exact ⟨v, hv, Option.some.inj h ▸ rfl⟩

lemma Kind.Only.subset {L' : List Record} (hL : I.Only L) (h : ∀ r ∈ L', r ∈ L) : I.Only L' :=
  fun r hr => hL r (h r hr)

def Kind.passes (I : Kind κ ν) (test : κ → Bool) (r : Record) : Bool := (I.key r).any test

lemma Kind.passes_iff (test : κ → Bool) (r : Record) :
    I.passes test r = true ↔ ∃ k, I.key r = some k ∧ test k = true := by
  unfold Kind.passes
  cases I.key r with
  | none => simp
  | some k => simp

lemma Kind.Only.scan_eq (hL : I.Only L) (test : κ → Bool) :
    I.scan test L = ((L.takeWhile (I.passes test)).filterMap I.entry, true) := by
  induction L with
  | nil => rfl
  | cons r L ih =>
    have ih := ih (hL.subset fun r hr => mem_cons_of_mem _ hr)
    unfold Kind.scan
    cases hkey : I.key r with
    | none =>
      have hstop : I.passes test r = false := by simp [Kind.passes, hkey]
      rw [takeWhile_cons_of_neg (by simp [hstop])]
      rfl
    | some k =>
      obtain ⟨v, hv, rfl⟩ := hL.eq_record mem_cons_self hkey
      by_cases htest : test k
      · have hgo : I.passes test (I.record k v) = true := by simp [Kind.passes, hkey, htest]
        rw [takeWhile_cons_of_pos hgo, filterMap_cons, Kind.entry_record k v hv]
        simp only [htest, if_true, Kind.value_record k v hv, ih]
      · have hstop : I.passes test (I.record k v) = false := by simp [Kind.passes, hkey, htest]
        rw [takeWhile_cons_of_neg (by simp [hstop])]
        simp only [htest, if_false, Bool.false_eq_true]
        rfl

lemma Kind.Only.mem_filterMap (hL : I.Only L) (wanted : κ → Bool) (k : κ) (v : ν) :
    (k, v) ∈ (L.filter (I.passes wanted)).filterMap I.entry ↔
      (I.carried v ∧ I.record k v ∈ L) ∧ wanted k = true := by
  simp only [List.mem_filterMap, List.mem_filter]
  constructor
  · rintro ⟨r, ⟨hr, hpass⟩, hentry⟩
    obtain ⟨k', hk', hwanted⟩ := (Kind.passes_iff wanted r).mp hpass
    obtain ⟨v', hv', rfl⟩ := hL.eq_record hr hk'
    rw [Kind.entry_record k' v' hv', Option.some.injEq, Prod.mk.injEq] at hentry
    obtain ⟨rfl, rfl⟩ := hentry
    exact ⟨⟨hv', hr⟩, hwanted⟩
  · rintro ⟨⟨hv, hr⟩, hwanted⟩
    exact ⟨I.record k v, ⟨hr, (Kind.passes_iff wanted _).mpr ⟨k, Kind.key_record k v, hwanted⟩⟩,
      Kind.entry_record k v hv⟩

def Kind.firstOther (I : Kind κ ν) (D : Store) (key : List UInt8) (wanted : κ → Bool) :
    Option Record :=
  (D.seek key).find? fun r => !I.passes wanted r

/-- The wanted records stand together from the seek key on, and the test passes them. -/
structure Kind.Ranged (I : Kind κ ν) (D : Store) (key : List UInt8) (test wanted : κ → Bool) :
    Prop where
  only : I.Only D.records
  passed : ∀ k, wanted k = true → test k = true
  above : ∀ r ∈ D.records, I.passes wanted r = true → ¬ r.1 < key
  together : ∀ a ∈ D.records, ∀ b ∈ D.records, ¬ a.1 < key → a.1 < b.1 → I.passes wanted b = true →
    I.passes wanted a = true

variable {D : Store} {key : List UInt8} {test wanted : κ → Bool}

lemma Kind.Ranged.passes (h : I.Ranged D key test wanted) (r : Record)
    (hr : I.passes wanted r = true) : I.passes test r = true := by
  obtain ⟨k, hk, hwanted⟩ := (Kind.passes_iff wanted r).mp hr
  exact (Kind.passes_iff test r).mpr ⟨k, hk, h.passed k hwanted⟩

lemma Kind.Ranged.only_seek (h : I.Ranged D key test wanted) : I.Only (D.seek key) :=
  h.only.subset fun r hr => ((D.mem_seek key r).mp hr).1

lemma Kind.Ranged.scan_of_stops (h : I.Ranged D key test wanted)
    (hstop : ∀ r, I.firstOther D key wanted = some r → I.passes test r = false) :
    I.scan test (D.seek key) = ((D.records.filter (I.passes wanted)).filterMap I.entry, true) := by
  have htogether : (D.seek key).Pairwise fun a b => I.passes wanted b → I.passes wanted a := by
    refine (D.seek_sorted key).imp_of_mem fun {a b} ha hb hlt hwanted => ?_
    obtain ⟨ha, hlow⟩ := (D.mem_seek key a).mp ha
    exact h.together a ha b ((D.mem_seek key b).mp hb).1 hlow hlt hwanted
  have hall : (D.seek key).filter (I.passes wanted) = D.records.filter (I.passes wanted) :=
    filter_dropWhile fun r hr hwanted => decide_eq_false (h.above r hr hwanted)
  rw [h.only_seek.scan_eq, takeWhile_eq_of_stops (fun r _ => h.passes r) hstop,
    takeWhile_eq_filter htogether, hall]

lemma Kind.Ranged.stops_of_scan (h : I.Ranged D key test wanted)
    (hwanted : ∀ k v, (k, v) ∈ (I.scan test (D.seek key)).1 → wanted k = true) :
    ∀ r, I.firstOther D key wanted = some r → I.passes test r = false := by
  intro r hfirst
  by_contra hpass
  rw [Bool.not_eq_false] at hpass
  have hmem := mem_takeWhile_of_passes (fun r _ => h.passes r) hfirst hpass
  have hr : r ∈ D.seek key := takeWhile_subset _ hmem
  obtain ⟨k, hk, -⟩ := (Kind.passes_iff test r).mp hpass
  obtain ⟨v, hv, rfl⟩ := h.only_seek.eq_record hr hk
  have htaken : (k, v) ∈ (I.scan test (D.seek key)).1 := by
    rw [h.only_seek.scan_eq]
    exact mem_filterMap.mpr ⟨_, hmem, Kind.entry_record k v hv⟩
  have hnot := find?_some hfirst
  have hpasses : I.passes wanted (I.record k v) = true :=
    (Kind.passes_iff wanted _).mpr ⟨k, hk, hwanted k v htaken⟩
  simp [hpasses] at hnot

lemma Kind.Only.pairwise_entries {L : List Record} (hL : I.Only L)
    (hsorted : L.Pairwise fun a b => a.1 < b.1) (wanted : κ → Bool) {R : κ × ν → κ × ν → Prop}
    (hR : ∀ x y, wanted x.1 = true → wanted y.1 = true →
      I.tag :: I.writeKey x.1 < I.tag :: I.writeKey y.1 → R x y) :
    ((L.filter (I.passes wanted)).filterMap I.entry).Pairwise R := by
  refine List.Pairwise.filterMap _ (R := fun a b => a ∈ L.filter (I.passes wanted) ∧
    b ∈ L.filter (I.passes wanted) ∧ a.1 < b.1) ?_ ?_
  · rintro a b ⟨ha, hb, hlt⟩ x hx y hy
    obtain ⟨ha, hpa⟩ := mem_filter.mp ha
    obtain ⟨hb, hpb⟩ := mem_filter.mp hb
    obtain ⟨k, hk, hwk⟩ := (Kind.passes_iff wanted a).mp hpa
    obtain ⟨k', hk', hwk'⟩ := (Kind.passes_iff wanted b).mp hpb
    obtain ⟨v, hv, rfl⟩ := hL.eq_record ha hk
    obtain ⟨v', hv', rfl⟩ := hL.eq_record hb hk'
    rw [Kind.entry_record _ _ hv] at hx
    rw [Kind.entry_record _ _ hv'] at hy
    cases hx
    cases hy
    exact hR (k, v) (k', v') hwk hwk' hlt
  · exact (hsorted.filter _).imp_of_mem fun ha hb hlt => ⟨ha, hb, hlt⟩

lemma Kind.Only.nodup_entries {L : List Record} (hL : I.Only L)
    (hsorted : L.Pairwise fun a b => a.1 < b.1) (wanted : κ → Bool) :
    ((L.filter (I.passes wanted)).filterMap I.entry).Nodup := by
  refine hL.pairwise_entries hsorted wanted fun x y _ _ hlt heq => ?_
  rw [heq] at hlt
  exact List.lt_irrefl _ hlt

end

end KeyScans
