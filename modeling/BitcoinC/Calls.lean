import Mathlib.Logic.Relation
import Mathlib.Tactic.Common

/-!
# Calls on a mutable state

A call changes a state and returns a value or an error. What it has written before
an error stays written.
-/

namespace Calls

open Relation

universe u

variable {σ ε : Type u} {α β : Type u}

def Call (σ ε α : Type u) : Type u := σ → Except ε α × σ

instance : Monad (Call σ ε) where
  pure a := fun s => (.ok a, s)
  bind x f := fun s =>
    match x s with
    | (.ok a, t) => f a t
    | (.error e, t) => (.error e, t)

def read : Call σ ε σ := fun s => (.ok s, s)

def write (f : σ → σ) : Call σ ε PUnit := fun s => (.ok ⟨⟩, f s)

def fail (e : ε) : Call σ ε α := fun s => (.error e, s)

def lift (r : Except ε α) : Call σ ε α := fun s => (r, s)

def attempt (x : Call σ ε α) : Call σ ε (Except ε α) := fun s => (.ok (x s).1, (x s).2)

lemma bind_apply (x : Call σ ε α) (f : α → Call σ ε β) (s : σ) : (x >>= f) s =
      match x s with
      | (.ok a, t) => f a t
      | (.error e, t) => (.error e, t) := rfl

section

variable {s t : σ} {a : α}

lemma bind_returns_iff {b : β} (x : Call σ ε α) (f : α → Call σ ε β) :
    (x >>= f) s = (.ok b, t) ↔ ∃ a u, x s = (.ok a, u) ∧ f a u = (.ok b, t) := by
  rw [bind_apply]
  cases hx : x s with
  | mk r u =>
    cases r with
    | ok a =>
      constructor
      · intro h
        exact ⟨a, u, rfl, h⟩
      · rintro ⟨a', u', heq, h⟩
        cases heq
        exact h
    | error e =>
      constructor
      · intro h
        cases h
      · rintro ⟨a', u', heq, -⟩
        cases heq

lemma pure_returns_iff (a' : α) : (pure a' : Call σ ε α) s = (.ok a, t) ↔ a' = a ∧ s = t := by
  show ((.ok a', s) : Except ε α × σ) = (.ok a, t) ↔ _
  simp

lemma read_returns_iff {u : σ} : (read : Call σ ε σ) s = (.ok u, t) ↔ s = u ∧ s = t := by
  show ((.ok s, s) : Except ε σ × σ) = (.ok u, t) ↔ _
  simp

lemma write_returns_iff (f : σ → σ) (a : PUnit) :
    (write f : Call σ ε PUnit) s = (.ok a, t) ↔ f s = t := by
  show ((.ok ⟨⟩, f s) : Except ε PUnit × σ) = (.ok a, t) ↔ _
  simp

lemma lift_returns_iff (r : Except ε α) : (lift r : Call σ ε α) s = (.ok a, t) ↔
    r = .ok a ∧ s = t := by
  show (r, s) = (.ok a, t) ↔ _
  simp

lemma fail_returns_iff (e : ε) : (fail e : Call σ ε α) s = (.ok a, t) ↔ False := by
  show ((.error e, s) : Except ε α × σ) = (.ok a, t) ↔ _
  simp

end

/-- The call ends in `Q` if it returns and in `R` if it fails. -/
def Wp (x : Call σ ε α) (Q : α → σ → Prop) (R : ε → σ → Prop) (s : σ) : Prop :=
  match x s with
  | (.ok a, t) => Q a t
  | (.error e, t) => R e t

section

variable {Q : α → σ → Prop} {R : ε → σ → Prop} {s : σ}

@[simp] lemma wp_pure (a : α) : Wp (pure a : Call σ ε α) Q R s ↔ Q a s := Iff.rfl

@[simp] lemma wp_fail (e : ε) : Wp (fail e) Q R s ↔ R e s := Iff.rfl

@[simp] lemma wp_read {Q : σ → σ → Prop} : Wp read Q R s ↔ Q s s := Iff.rfl

@[simp] lemma wp_write {Q : PUnit → σ → Prop} (f : σ → σ) : Wp (write f) Q R s ↔ Q ⟨⟩ (f s) :=
  Iff.rfl

@[simp] lemma wp_lift_ok (a : α) : Wp (lift (.ok a)) Q R s ↔ Q a s := Iff.rfl

@[simp] lemma wp_lift_error (e : ε) : Wp (lift (.error e)) Q R s ↔ R e s := Iff.rfl

lemma wp_lift (r : Except ε α) :
    Wp (lift r) Q R s ↔ (∀ a, r = .ok a → Q a s) ∧ ∀ e, r = .error e → R e s := by
  cases r with
  | ok a => simp
  | error e => simp

@[simp] lemma wp_attempt {Q : Except ε α → σ → Prop} (x : Call σ ε α) :
    Wp (attempt x) Q R s ↔ Wp x (fun a t => Q (.ok a) t) (fun e t => Q (.error e) t) s := by
  unfold Wp attempt
  cases h : x s with
  | mk r t => cases r <;> simp

@[simp] lemma wp_bind {Q : β → σ → Prop} (x : Call σ ε α) (f : α → Call σ ε β) :
    Wp (x >>= f) Q R s ↔ Wp x (fun a t => Wp (f a) Q R t) R s := by
  cases h : x s with
  | mk r t => cases r <;> simp only [Wp, bind_apply, h]

lemma wp_mono {Q' : α → σ → Prop} {R' : ε → σ → Prop} {x : Call σ ε α} (h : Wp x Q R s)
    (hQ : ∀ a t, Q a t → Q' a t) (hR : ∀ e t, R e t → R' e t) : Wp x Q' R' s := by
  unfold Wp at h ⊢
  cases hx : x s with
  | mk r t =>
    rw [hx] at h
    cases r with
    | ok a => exact hQ a t h
    | error e => exact hR e t h

lemma wp_self (x : Call σ ε α) (s : σ) :
    Wp x (fun a t => x s = (.ok a, t)) (fun e t => x s = (.error e, t)) s := by
  unfold Wp
  cases x s with
  | mk r t => cases r <;> rfl

lemma wp_and {Q' : α → σ → Prop} {R' : ε → σ → Prop} {x : Call σ ε α} (h : Wp x Q R s)
    (h' : Wp x Q' R' s) : Wp x (fun a t => Q a t ∧ Q' a t) (fun e t => R e t ∧ R' e t) s := by
  unfold Wp at h h' ⊢
  cases hx : x s with
  | mk r t =>
    rw [hx] at h h'
    cases r with
    | ok a => exact ⟨h, h'⟩
    | error e => exact ⟨h, h'⟩

end

/-- Every outcome of the call is reached from the state it started from by steps of `R`. -/
def Moves (R : σ → σ → Prop) (x : Call σ ε α) : Prop :=
  ∀ s, Wp x (fun _ t => ReflTransGen R s t) (fun _ t => ReflTransGen R s t) s

section

variable {R : σ → σ → Prop}

lemma moves_pure (a : α) : Moves R (pure a : Call σ ε α) := fun _ => .refl

lemma moves_fail (e : ε) : Moves R (fail e : Call σ ε α) := fun _ => .refl

lemma moves_read : Moves R (read : Call σ ε σ) := fun _ => .refl

lemma moves_lift (r : Except ε α) : Moves R (lift r : Call σ ε α) := by
  intro s
  rw [wp_lift]
  exact ⟨fun _ _ => .refl, fun _ _ => .refl⟩

lemma moves_write {f : σ → σ} (h : ∀ s, R s (f s)) : Moves R (write f : Call σ ε PUnit) :=
  fun s => .single (h s)

lemma moves_bind {x : Call σ ε α} {f : α → Call σ ε β} (hx : Moves R x)
    (hf : ∀ a, Moves R (f a)) : Moves R (x >>= f) := by
  intro s
  rw [wp_bind]
  refine wp_mono (hx s) ?_ fun _ _ h => h
  intro a t hst
  exact wp_mono (hf a t) (fun _ _ h => hst.trans h) fun _ _ h => hst.trans h

lemma moves_ite {p : Prop} [Decidable p] {x y : Call σ ε α} (hx : Moves R x) (hy : Moves R y) :
    Moves R (if p then x else y) := by
  by_cases h : p
  · rw [if_pos h]
    exact hx
  · rw [if_neg h]
    exact hy

end

end Calls
