import Mathlib.Tactic.Common

/-!
# Checks that accept or reject

A validator is a sequence of checks in `Except`: it stops at the first check that
rejects. This file has the inversion rules for such sequences and for loops over
them.
-/

namespace Verdicts

variable {ε ε' α β σ : Type}

def rejectIf (p : Prop) [Decidable p] (e : ε) : Except ε Unit :=
  if p then .error e else .ok ()

def orReject (x : Option α) (e : ε) : Except ε α :=
  match x with
  | some a => .ok a
  | none => .error e

def relabel (f : ε → ε') : Except ε α → Except ε' α
  | .ok a => .ok a
  | .error e => .error (f e)

@[simp] lemma pure_ok_iff (a b : α) : (pure a : Except ε α) = .ok b ↔ a = b := by
  simp [pure, Except.pure]

lemma bind_ok_iff (x : Except ε α) (f : α → Except ε β) (b : β) :
    (x >>= f) = .ok b ↔ ∃ a, x = .ok a ∧ f a = .ok b := by
  cases x with
  | error e => simp [bind, Except.bind]
  | ok a => simp [bind, Except.bind]

@[simp] lemma ok_bind (a : α) (f : α → Except ε β) : ((.ok a : Except ε α) >>= f) = f a := rfl

@[simp] lemma error_bind (e : ε) (f : α → Except ε β) :
    ((.error e : Except ε α) >>= f) = .error e := rfl

@[simp] lemma rejectIf_ok_iff (p : Prop) [Decidable p] (e : ε) (a : Unit) :
    rejectIf p e = .ok a ↔ ¬ p := by
  unfold rejectIf
  split <;> simp_all

@[simp] lemma orReject_ok_iff (x : Option α) (e : ε) (a : α) :
    orReject x e = .ok a ↔ x = some a := by
  cases x <;> simp [orReject]

@[simp] lemma relabel_ok_iff (f : ε → ε') (x : Except ε α) (a : α) :
    relabel f x = .ok a ↔ x = .ok a := by
  cases x <;> simp [relabel]

lemma exists_ok_of_toOption (x : Except ε α) (f : α → β) (b : β)
    (h : x.toOption.map f = some b) : ∃ a, x = .ok a ∧ f a = b := by
  cases x with
  | error e => cases h
  | ok a => exact ⟨a, rfl, Option.some.inj h⟩

instance decidableExistsOk (x : Except ε α) : Decidable (∃ a, x = .ok a) :=
  match x with
  | .ok a => .isTrue ⟨a, rfl⟩
  | .error _ => .isFalse fun ⟨_, h⟩ => nomatch h

lemma rejectIf_bind_ok_iff (p : Prop) [Decidable p] (e : ε) (f : Unit → Except ε β) (b : β) :
    (rejectIf p e >>= f) = .ok b ↔ ¬ p ∧ f () = .ok b := by
  unfold rejectIf
  split <;> simp_all

@[simp] lemma pure_ne_error (a : α) (e : ε) : (pure a : Except ε α) ≠ .error e := by
  simp [pure, Except.pure]

lemma bind_error_iff (x : Except ε α) (f : α → Except ε β) (e : ε) :
    (x >>= f) = .error e ↔ x = .error e ∨ ∃ a, x = .ok a ∧ f a = .error e := by
  cases x with
  | error e' => simp [bind, Except.bind]
  | ok a => simp [bind, Except.bind]

lemma rejectIf_error_iff (p : Prop) [Decidable p] (e e' : ε) :
    rejectIf p e = .error e' ↔ p ∧ e = e' := by
  unfold rejectIf
  split <;> simp_all

lemma orReject_error_iff (x : Option α) (e e' : ε) :
    orReject x e = .error e' ↔ x = none ∧ e = e' := by
  cases x <;> simp [orReject]

def loop (step : σ → α → Except ε σ) : σ → List α → Except ε σ
  | s, [] => .ok s
  | s, a :: as => step s a >>= fun s' => loop step s' as

@[simp] lemma loop_nil (step : σ → α → Except ε σ) (s : σ) : loop step s [] = .ok s := rfl

lemma loop_cons_ok_iff (step : σ → α → Except ε σ) (s t : σ) (a : α) (as : List α) :
    loop step s (a :: as) = .ok t ↔ ∃ m, step s a = .ok m ∧ loop step m as = .ok t := by
  simp only [loop, bind_ok_iff]

lemma loop_append_ok_iff (step : σ → α → Except ε σ) (s t : σ) (as bs : List α) :
    loop step s (as ++ bs) = .ok t ↔ ∃ m, loop step s as = .ok m ∧ loop step m bs = .ok t := by
  induction as generalizing s with
  | nil => simp
  | cons a as ih =>
    simp only [List.cons_append, loop_cons_ok_iff, ih]
    constructor
    · rintro ⟨m, hm, r, hr, ht⟩
      exact ⟨r, ⟨m, hm, hr⟩, ht⟩
    · rintro ⟨r, ⟨m, hm, hr⟩, ht⟩
      exact ⟨m, hm, r, hr, ht⟩

lemma loop_error_iff (step : σ → α → Except ε σ) (s : σ) (as : List α) (e : ε) :
    loop step s as = .error e ↔
      ∃ before a after m, as = before ++ a :: after ∧ loop step s before = .ok m ∧
        step m a = .error e := by
  induction as generalizing s with
  | nil => simp
  | cons b bs ih =>
    simp only [loop, bind_error_iff, ih]
    constructor
    · rintro (hfirst | ⟨m, hm, before, a, after, t, rfl, hbefore, ha⟩)
      · exact ⟨[], b, bs, s, rfl, rfl, hfirst⟩
      · exact ⟨b :: before, a, after, t, rfl, (loop_cons_ok_iff ..).mpr ⟨m, hm, hbefore⟩, ha⟩
    · rintro ⟨before, a, after, t, hsplit, hbefore, ha⟩
      cases before with
      | nil =>
        obtain ⟨rfl, -⟩ := List.cons.inj hsplit
        rw [loop_nil, Except.ok.injEq] at hbefore
        exact .inl (hbefore ▸ ha)
      | cons c before =>
        obtain ⟨rfl, hrest⟩ := List.cons.inj hsplit
        obtain ⟨m, hm, hloop⟩ := (loop_cons_ok_iff ..).mp hbefore
        exact .inr ⟨m, hm, before, a, after, t, hrest, hloop, ha⟩

lemma loop_congr (step step' : σ → α → Except ε σ) (as : List α)
    (h : ∀ a ∈ as, ∀ s, step s a = step' s a) (s : σ) : loop step s as = loop step' s as := by
  induction as generalizing s with
  | nil => rfl
  | cons a as ih =>
    rw [List.forall_mem_cons] at h
    rw [loop, loop, h.1 s]
    exact congrArg _ (funext fun s' => ih h.2 s')

lemma loop_ok_mono {step step' : σ → α → Except ε σ}
    (as : List α) (h : ∀ a ∈ as, ∀ s t, step s a = .ok t → step' s a = .ok t) (s t : σ)
    (hs : loop step s as = .ok t) : loop step' s as = .ok t := by
  induction as generalizing s with
  | nil => exact hs
  | cons a as ih =>
    rw [List.forall_mem_cons] at h
    obtain ⟨m, hm, hrest⟩ := (loop_cons_ok_iff step s t a as).mp hs
    exact (loop_cons_ok_iff step' s t a as).mpr ⟨m, h.1 s m hm, ih h.2 m hrest⟩

/-- A loop whose steps are matched by those of another one is matched by it. -/
lemma loop_simulates {τ : Type _} {step : σ → α → Except ε σ} {step' : τ → α → Except ε τ}
    (R : σ → τ → Prop) (h : ∀ a s s' t, R s s' → step s a = .ok t → ∃ t',
      step' s' a = .ok t' ∧ R t t')
    (as : List α) (s t : σ) (s' : τ) (hR : R s s') (hs : loop step s as = .ok t) :
    ∃ t', loop step' s' as = .ok t' ∧ R t t' := by
  induction as generalizing s s' with
  | nil =>
    cases hs
    exact ⟨s', rfl, hR⟩
  | cons a as ih =>
    obtain ⟨m, hm, hrest⟩ := (loop_cons_ok_iff step s t a as).mp hs
    obtain ⟨m', hm', hR'⟩ := h a s s' m hR hm
    obtain ⟨t', ht', hRt⟩ := ih m m' hR' hrest
    exact ⟨t', (loop_cons_ok_iff step' s' t' a as).mpr ⟨m', hm', ht'⟩, hRt⟩

/-- Steps that ask for more than others, but do the same. -/
lemma loop_ok_and_iff {step step' : σ → α → Except ε σ} {Q : α → Prop}
    (h : ∀ s t a, step s a = .ok t ↔ step' s a = .ok t ∧ Q a) (as : List α) (s t : σ) :
    loop step s as = .ok t ↔ loop step' s as = .ok t ∧ ∀ a ∈ as, Q a := by
  induction as generalizing s with
  | nil => simp
  | cons a as ih =>
    simp only [loop_cons_ok_iff, h, ih, List.forall_mem_cons]
    constructor
    · rintro ⟨m, ⟨hm, ha⟩, hrest, has⟩
      exact ⟨⟨m, hm, hrest⟩, ha, has⟩
    · rintro ⟨⟨m, hm, hrest⟩, ha, has⟩
      exact ⟨m, ⟨hm, ha⟩, hrest, has⟩

lemma loop_induction (step : σ → α → Except ε σ) (P : σ → Prop) (as : List α)
    (hstep : ∀ s t a, a ∈ as → P s → step s a = .ok t → P t) (s t : σ) (hs : P s)
    (h : loop step s as = .ok t) : P t := by
  induction as generalizing s with
  | nil =>
    rw [loop_nil] at h
    exact Except.ok.inj h ▸ hs
  | cons a as ih =>
    obtain ⟨m, hm, hrest⟩ := (loop_cons_ok_iff step s t a as).mp h
    exact ih (fun s t b hb => hstep s t b (List.mem_cons_of_mem a hb)) m
      (hstep s m a List.mem_cons_self hs hm) hrest

def everyStep (P : σ → α → Prop) (step : σ → α → Except ε σ) : σ → List α → Prop
  | _, [] => True
  | s, a :: as => P s a ∧ ∀ t, step s a = .ok t → everyStep P step t as

lemma everyStep_ok {P : σ → α → Prop} {step : σ → α → Except ε σ} {s t : σ} {a : α} {as : List α}
    (h : step s a = .ok t) : everyStep P step s (a :: as) ↔ P s a ∧ everyStep P step t as := by
  refine and_congr_right fun _ => ⟨fun hall => hall t h, fun ht t' ht' => ?_⟩
  rwa [← Except.ok.inj (h.symm.trans ht')]

lemma everyStep_error {P : σ → α → Prop} {step : σ → α → Except ε σ} {s : σ} {a : α} {as : List α}
    {e : ε} (h : step s a = .error e) : everyStep P step s (a :: as) ↔ P s a := by
  refine and_iff_left fun t ht => ?_
  cases h.symm.trans ht

instance decidableEveryStep (P : σ → α → Prop) [∀ s a, Decidable (P s a)] (step : σ → α →
    Except ε σ) : (s : σ) → (as : List α) → Decidable (everyStep P step s as)
  | _, [] => .isTrue trivial
  | s, a :: as =>
    match h : step s a with
    | .error _ => decidable_of_iff _ (everyStep_error h).symm
    | .ok t =>
      haveI := decidableEveryStep P step t as
      decidable_of_iff _ (everyStep_ok h).symm

/-- An invariant that each permitted step keeps holds after the run. -/
lemma everyStep_induction (step : σ → α → Except ε σ) (P : σ → α → Prop) (Q : σ → Prop)
    (hstep : ∀ s t a, Q s → P s a → step s a = .ok t → Q t) (as : List α) (s t : σ) (hs : Q s)
    (hP : everyStep P step s as) (h : loop step s as = .ok t) : Q t := by
  induction as generalizing s with
  | nil =>
    rw [loop_nil] at h
    exact Except.ok.inj h ▸ hs
  | cons a as ih =>
    obtain ⟨m, hm, hrest⟩ := (loop_cons_ok_iff step s t a as).mp h
    exact ih m (hstep s m a hs hP.1 hm) (hP.2 m hm) hrest

lemma loop_congr_along (step step' : σ → α → Except ε σ) (P : σ → α → Prop)
    (hstep : ∀ s a, P s a → step s a = step' s a) (as : List α) (s : σ)
    (hP : everyStep P step s as) : loop step s as = loop step' s as := by
  induction as generalizing s with
  | nil => rfl
  | cons a as ih =>
    rw [loop, loop, ← hstep s a hP.1]
    cases hs : step s a with
    | error e => rfl
    | ok t => exact ih t (hP.2 t hs)

lemma everyStep_and (step : σ → α → Except ε σ) (P : σ → α → Prop) (Q : α → Prop) (as : List α)
    (s : σ) (hQ : ∀ a ∈ as, Q a) (hP : everyStep P step s as) :
    everyStep (fun s a => P s a ∧ Q a) step s as := by
  induction as generalizing s with
  | nil => trivial
  | cons a as ih =>
    rw [List.forall_mem_cons] at hQ
    exact ⟨⟨hP.1, hQ.1⟩, fun t ht => ih t hQ.2 (hP.2 t ht)⟩

/-- The sum of `f` over the steps of a run, each taken in the state that it starts from. -/
def stepSum (f : σ → α → Int) (step : σ → α → Except ε σ) : σ → List α → Int
  | _, [] => 0
  | s, a :: as =>
    f s a + match step s a with
      | .ok t => stepSum f step t as
      | .error _ => 0

lemma stepSum_cons (f : σ → α → Int) (step : σ → α → Except ε σ) (s t : σ) (a : α) (as : List α)
    (h : step s a = .ok t) : stepSum f step s (a :: as) = f s a + stepSum f step t as := by
  rw [stepSum, h]

/-- Where each step adds its difference of a potential, a run adds the whole one. -/
lemma stepSum_telescope (step : σ → α → Except ε σ) (P : σ → α → Prop) (Q : σ → Prop)
    (f : σ → α → Int) (potential : σ → Int)
    (hstep : ∀ s t a, Q s → P s a → step s a = .ok t → Q t ∧ f s a + potential s = potential t)
    (as : List α) (s t : σ) (hs : Q s) (hP : everyStep P step s as) (h : loop step s as = .ok t) :
    stepSum f step s as + potential s = potential t := by
  induction as generalizing s with
  | nil =>
    rw [loop_nil, Except.ok.injEq] at h
    rw [stepSum, h, Int.zero_add]
  | cons a as ih =>
    obtain ⟨m, hm, hrest⟩ := (loop_cons_ok_iff step s t a as).mp h
    obtain ⟨hQ, hgain⟩ := hstep s m a hs hP.1 hm
    have hlater := ih m hQ (hP.2 m hm) hrest
    rw [stepSum_cons f step s m a as hm]
    omega

lemma stepSum_le (step : σ → α → Except ε σ) (P : σ → α → Prop) (Q : σ → Prop) (f g : σ → α → Int)
    (hstep : ∀ s t a, Q s → P s a → step s a = .ok t → Q t ∧ f s a ≤ g s a)
    (as : List α) (s t : σ) (hs : Q s) (hP : everyStep P step s as) (h : loop step s as = .ok t) :
    stepSum f step s as ≤ stepSum g step s as := by
  induction as generalizing s with
  | nil => exact Int.le_refl 0
  | cons a as ih =>
    obtain ⟨m, hm, hrest⟩ := (loop_cons_ok_iff step s t a as).mp h
    obtain ⟨hQ, hle⟩ := hstep s m a hs hP.1 hm
    have hlater := ih m hQ (hP.2 m hm) hrest
    rw [stepSum_cons f step s m a as hm, stepSum_cons g step s m a as hm]
    omega

lemma stepSum_sub (step : σ → α → Except ε σ) (f g : σ → α → Int) (as : List α) (s : σ) :
    stepSum (fun s a => f s a - g s a) step s as = stepSum f step s as - stepSum g step s as := by
  induction as generalizing s with
  | nil => rfl
  | cons a as ih =>
    simp only [stepSum]
    cases step s a with
    | error e =>
      dsimp only
      omega
    | ok t =>
      dsimp only
      rw [ih t]
      omega

lemma loop_ok_mem (step : σ → α → Except ε σ) (as : List α) (s t : σ)
    (h : loop step s as = .ok t) (a : α) (ha : a ∈ as) : ∃ m m', step m a = .ok m' := by
  induction as generalizing s with
  | nil => simp at ha
  | cons b bs ih =>
    obtain ⟨m, hm, hrest⟩ := (loop_cons_ok_iff step s t b bs).mp h
    rcases List.mem_cons.mp ha with rfl | ha
    · exact ⟨s, m, hm⟩
    · exact ih m hrest ha

def carry {ν : Type _} (step : σ → α → Except ε σ) (note : σ → σ → α → ν → ν) (s : σ × ν) (a : α) :
    Except ε (σ × ν) :=
  step s.1 a >>= fun t => .ok (t, note s.1 t a s.2)

lemma carry_ok_iff {ν : Type _} (step : σ → α → Except ε σ) (note : σ → σ → α → ν → ν)
    (s t : σ × ν) (a : α) :
    carry step note s a = .ok t ↔ step s.1 a = .ok t.1 ∧ t.2 = note s.1 t.1 a s.2 := by
  simp only [carry, bind_ok_iff, Except.ok.injEq]
  constructor
  · rintro ⟨m, hm, rfl⟩
    exact ⟨hm, rfl⟩
  · rintro ⟨hm, hnote⟩
    exact ⟨t.1, hm, Prod.ext rfl hnote.symm⟩

lemma loop_carry_ok {ν : Type _} (step : σ → α → Except ε σ) (note : σ → σ → α → ν → ν)
    (as : List α) (s t : σ × ν) (h : loop (carry step note) s as = .ok t) :
    loop step s.1 as = .ok t.1 := by
  induction as generalizing s with
  | nil =>
    obtain rfl := Except.ok.inj h
    rfl
  | cons a as ih =>
    obtain ⟨m, hm, hrest⟩ := (loop_cons_ok_iff _ _ _ _ _).mp h
    rw [loop_cons_ok_iff]
    exact ⟨m.1, ((carry_ok_iff _ _ _ _ _).mp hm).1, ih m hrest⟩

def checkEach (check : α → Except ε Unit) : List α → Except ε Unit
  | [] => .ok ()
  | a :: as => check a >>= fun _ => checkEach check as

@[simp] lemma checkEach_ok_iff (check : α → Except ε Unit) (as : List α) (r : Unit) :
    checkEach check as = .ok r ↔ ∀ a ∈ as, check a = .ok () := by
  induction as with
  | nil => simp [checkEach]
  | cons a as ih =>
    simp only [checkEach, bind_ok_iff, ih, List.forall_mem_cons]
    constructor
    · rintro ⟨u, hu, hrest⟩
      exact ⟨hu, hrest⟩
    · rintro ⟨hu, hrest⟩
      exact ⟨(), hu, hrest⟩

end Verdicts
