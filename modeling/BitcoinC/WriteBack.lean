import Mathlib.Tactic.Common

/-!
# Slots of a write-back cache

A cache in front of a store keeps, for some keys, a value or a deletion with two
flags: `dirty` when the store may differ, `fresh` when the store has nothing under
the key. This file looks at one key at a time.
-/

namespace WriteBack

universe u

variable {V : Type u}

structure Slot (V : Type u) where
  value : Option V
  dirty : Bool
  fresh : Bool

def look (slot : Option (Slot V)) (below : Option V) : Option V :=
  match slot with
  | none => below
  | some s => s.value

/-- FRESH means unknown below, and a clean slot agrees with what is below. -/
structure Sound (slot : Option (Slot V)) (below : Option V) : Prop where
  fresh : ∀ s, slot = some s → s.fresh = true → below = none
  clean : ∀ s, slot = some s → s.dirty = false → s.value = below

lemma sound_none (below : Option V) : Sound none below := by
  constructor <;> intro s h <;> cases h

lemma sound_dirty (v : Option V) (fresh : Bool) (below : Option V)
    (h : fresh = true → below = none) : Sound (some ⟨v, true, fresh⟩) below := by
  constructor
  · intro s hs hfresh
    cases hs
    exact h hfresh
  · intro s hs hdirty
    cases hs
    cases hdirty

def fill (below : Option V) : Option (Slot V) := below.map fun v => ⟨some v, false, false⟩

lemma look_fill (below : Option V) : look (fill below) below = below := by
  cases below <;> rfl

lemma sound_fill (below : Option V) : Sound (fill below) below := by
  cases below with
  | none => exact sound_none none
  | some v =>
    constructor
    · intro s hs hfresh
      cases hs
      cases hfresh
    · intro s hs _
      cases hs
      rfl

def write (slot : Option (Slot V)) (v : V) (new : Bool) : Slot V :=
  match slot with
  | none => ⟨some v, true, new⟩
  | some s => ⟨some v, true, s.fresh || (new && !s.dirty)⟩

lemma look_write (slot : Option (Slot V)) (v : V) (new : Bool) (below : Option V) :
    look (some (write slot v new)) below = some v := by
  cases slot <;> rfl

lemma sound_write {slot : Option (Slot V)} {below : Option V} (h : Sound slot below) (v : V)
    (new : Bool) (hnew : new = true → look slot below = none) :
    Sound (some (write slot v new)) below := by
  cases slot with
  | none => exact sound_dirty _ _ _ hnew
  | some s =>
    refine sound_dirty _ _ _ fun hfresh => ?_
    rcases Bool.or_eq_true_iff.mp hfresh with hold | hfirst
    · exact h.fresh s rfl hold
    · -- a clean slot shows what lies below
      rw [Bool.and_eq_true, Bool.not_eq_true'] at hfirst
      exact (h.clean s rfl hfirst.2).symm.trans (hnew hfirst.1)

def delete (s : Slot V) : Option (Slot V) :=
  if s.fresh then none else some ⟨none, true, s.fresh⟩

lemma look_delete {s : Slot V} {below : Option V} (h : Sound (some s) below) :
    look (delete s) below = none := by
  unfold delete
  by_cases hfresh : s.fresh = true
  · rw [if_pos hfresh]
    exact h.fresh s rfl hfresh
  · rw [if_neg hfresh]
    rfl

lemma sound_delete (s : Slot V) (below : Option V) : Sound (delete s) below := by
  unfold delete
  by_cases hfresh : s.fresh = true
  · rw [if_pos hfresh]
    exact sound_none below
  · rw [if_neg hfresh]
    exact sound_dirty _ _ _ fun h' => absurd h' hfresh

lemma look_clean {s : Slot V} {below : Option V} (h : Sound (some s) below)
    (hdirty : s.dirty = false) : below = look (some s) below :=
  (h.clean s rfl hdirty).symm

def merge (child : Slot V) (parent : Option (Slot V)) : Option (Slot V) :=
  if child.dirty = false then parent
  else
    match parent with
    | none => if child.fresh && child.value.isNone then none else some ⟨child.value, true,
        child.fresh⟩
    | some p => if p.fresh && child.value.isNone then none else some ⟨child.value, true, p.fresh⟩

section

variable {child : Slot V} {parent : Option (Slot V)} {below : Option V}

lemma parent_dead (hchild : Sound (some child) (look parent below)) (hfresh : child.fresh = true)
    (p : Slot V) (hp : parent = some p) : p.value = none := by
  have h := hchild.fresh child rfl hfresh
  rw [hp] at h
  exact h

lemma look_merge (hchild : Sound (some child) (look parent below)) (hparent : Sound parent below) :
    look (merge child parent) below = child.value := by
  unfold merge
  by_cases hdirty : child.dirty = false
  · rw [if_pos hdirty]
    exact (hchild.clean child rfl hdirty).symm
  · rw [if_neg hdirty]
    cases parent with
    | none =>
      dsimp only
      by_cases hdrop : (child.fresh && child.value.isNone) = true
      · rw [if_pos hdrop]
        rw [Bool.and_eq_true, Option.isNone_iff_eq_none] at hdrop
        exact (hchild.fresh child rfl hdrop.1).trans hdrop.2.symm
      · rw [if_neg hdrop]
        rfl
    | some p =>
      dsimp only
      by_cases hdrop : (p.fresh && child.value.isNone) = true
      · rw [if_pos hdrop]
        rw [Bool.and_eq_true, Option.isNone_iff_eq_none] at hdrop
        exact (hparent.fresh p rfl hdrop.1).trans hdrop.2.symm
      · rw [if_neg hdrop]
        rfl

lemma sound_merge (hchild : Sound (some child) (look parent below))
    (hparent : Sound parent below) : Sound (merge child parent) below := by
  unfold merge
  by_cases hdirty : child.dirty = false
  · rw [if_pos hdirty]
    exact hparent
  · rw [if_neg hdirty]
    cases parent with
    | none =>
      dsimp only
      split
      · exact sound_none below
      · exact sound_dirty _ _ _ fun hfresh => hchild.fresh child rfl hfresh
    | some p =>
      dsimp only
      split
      · exact sound_none below
      · exact sound_dirty _ _ _ fun hfresh => hparent.fresh p rfl hfresh

end

def settle (child : Slot V) (below : Option V) : Option V :=
  if child.dirty then child.value else below

lemma settle_eq {child : Slot V} {below : Option V} (h : Sound (some child) below) :
    settle child below = child.value := by
  unfold settle
  by_cases hdirty : child.dirty = true
  · rw [if_pos hdirty]
  · rw [if_neg hdirty]
    exact (h.clean child rfl (by simpa using hdirty)).symm

end WriteBack
