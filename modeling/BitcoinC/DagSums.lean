import Mathlib.Logic.Relation
import Mathlib.Algebra.BigOperators.Group.Finset.Basic
import Mathlib.Algebra.BigOperators.Group.Finset.Piecewise
import Mathlib.Algebra.Group.Basic
import Mathlib.Tactic.Abel

/-!
# Sums over what a node reaches

A finite set of nodes with a relation, a weight for every node, and a value per
node that is meant to be the weight of the node and of everything it reaches.
-/

namespace DagSums

open Relation

variable {V A : Type} [DecidableEq V] [AddCommGroup A]

open scoped Classical in
noncomputable def reach (N : Finset V) (R : V → V → Prop) (v : V) : Finset V :=
  N.filter fun a => TransGen R v a

omit [DecidableEq V] in
lemma mem_reach (N : Finset V) (R : V → V → Prop) (v a : V) :
    a ∈ reach N R v ↔ a ∈ N ∧ TransGen R v a := by
  simp [reach]

/-- Each node has its own weight and the weights of all it reaches. -/
def Exact (N : Finset V) (R : V → V → Prop) (w f : V → A) : Prop :=
  ∀ v ∈ N, f v = w v + ∑ a ∈ reach N R v, w a

/-- The relation has edges between nodes only. -/
def Within (N : Finset V) (R : V → V → Prop) : Prop := ∀ a b, R a b → a ∈ N ∧ b ∈ N

section

omit [DecidableEq V] in
lemma Within.swap {N : Finset V} {R : V → V → Prop} (h : Within N R) :
    Within N (Function.swap R) := fun a b hab => (h b a hab).symm

omit [DecidableEq V] in
lemma Within.transGen {N : Finset V} {R : V → V → Prop} (h : Within N R) {a b : V}
    (hab : TransGen R a b) : a ∈ N ∧ b ∈ N := by
  induction hab with
  | single hab => exact h _ _ hab
  | tail _ hbc ih => exact ⟨ih.1, (h _ _ hbc).2⟩

variable {N : Finset V} {R R' : V → V → Prop} {x : V} {P : V → Prop}

omit [DecidableEq V] in
lemma Exact.congr {N : Finset V} {R : V → V → Prop} {w w' f f' : V → A} (h : Exact N R w f)
    (hw : ∀ v ∈ N, w' v = w v) (hf : ∀ v ∈ N, f' v = f v) : Exact N R w' f' := by
  intro v hv
  rw [hf v hv, hw v hv, h v hv]
  exact congrArg _ (Finset.sum_congr rfl fun a ha => (hw a ((mem_reach N R v a).mp ha).1).symm)

omit [DecidableEq V] in
lemma Exact.eq_sum {N : Finset V} {R : V → V → Prop} {w f : V → A} (h : Exact N R w f) {v : V}
    (hv : v ∈ N) (hacyclic : ¬ TransGen R v v) (S : Finset V)
    (hS : ∀ a, a ∈ S ↔ a ∈ N ∧ ReflTransGen R v a) : f v = ∑ a ∈ S, w a := by
  classical
  have hnot : v ∉ reach N R v := fun hmem => hacyclic ((mem_reach N R v v).mp hmem).2
  have hset : S = insert v (reach N R v) := by
    ext a
    rw [hS, Finset.mem_insert, mem_reach, reflTransGen_iff_eq_or_transGen]
    constructor
    · rintro ⟨ha, heq | hva⟩
      · exact Or.inl heq
      · exact Or.inr ⟨ha, hva⟩
    · rintro (rfl | ⟨ha, hva⟩)
      · exact ⟨hv, Or.inl rfl⟩
      · exact ⟨ha, Or.inr hva⟩
  rw [hset, Finset.sum_insert hnot, h v hv]

omit [DecidableEq V] in
lemma transGen_old (hR : Within N R) (hx : x ∉ N)
    (hnew : ∀ c p, R' c p ↔ R c p ∨ c = x ∧ P p) {v a : V} (hv : v ∈ N) :
    TransGen R' v a ↔ TransGen R v a := by
  constructor
  · intro h
    induction h with
    | single h =>
      rcases (hnew _ _).mp h with h | ⟨rfl, -⟩
      · exact .single h
      · exact absurd hv hx
    | tail _ h ih =>
      rcases (hnew _ _).mp h with h | ⟨rfl, -⟩
      · exact ih.tail h
      · exact absurd (hR.transGen ih).2 hx
  · exact TransGen.mono (fun c p h => (hnew c p).mpr (Or.inl h)) v a

omit [DecidableEq V] in
lemma transGen_new (hR : Within N R) (hx : x ∉ N) (hP : ∀ p, P p → p ∈ N)
    (hnew : ∀ c p, R' c p ↔ R c p ∨ c = x ∧ P p) (a : V) :
    TransGen R' x a ↔ ∃ p, P p ∧ ReflTransGen R p a := by
  rw [TransGen.head'_iff]
  refine exists_congr fun p => ?_
  constructor
  · rintro ⟨hxp, hpa⟩
    rcases (hnew _ _).mp hxp with h | ⟨-, h⟩
    · exact absurd (hR _ _ h).1 hx
    · refine ⟨h, ?_⟩
      rcases reflTransGen_iff_eq_or_transGen.mp hpa with rfl | hpa
      · exact .refl
      · exact ((transGen_old hR hx hnew (hP p h)).mp hpa).to_reflTransGen
  · rintro ⟨h, hpa⟩
    exact ⟨(hnew _ _).mpr (Or.inr ⟨rfl, h⟩), ReflTransGen.mono
      (fun c p h => (hnew c p).mpr (Or.inl h)) _ _ hpa⟩

variable {w f f' : V → A}

lemma Exact.add_source (h : Exact N R w f) (hR : Within N R) (hx : x ∉ N) (hP : ∀ p, P p → p ∈ N)
    (hnew : ∀ c p, R' c p ↔ R c p ∨ c = x ∧ P p) (S : Finset V)
    (hS : ∀ a, a ∈ S ↔ ∃ p, P p ∧ ReflTransGen R p a) (hold : ∀ v ∈ N, f' v = f v)
    (hf : f' x = w x + ∑ a ∈ S, w a) : Exact (insert x N) R' w f' := by
  intro v hv
  rcases Finset.mem_insert.mp hv with rfl | hv
  · have hset : reach (insert v N) R' v = S := by
      ext a
      rw [mem_reach, transGen_new hR hx hP hnew, hS]
      refine ⟨fun ha => ha.2, fun ha => ⟨?_, ha⟩⟩
      obtain ⟨p, hp, hpa⟩ := ha
      rcases reflTransGen_iff_eq_or_transGen.mp hpa with rfl | hpa
      · exact Finset.mem_insert_of_mem (hP _ hp)
      · exact Finset.mem_insert_of_mem (hR.transGen hpa).2
    rw [hset, hf]
  · have hset : reach (insert x N) R' v = reach N R v := by
      ext a
      rw [mem_reach, mem_reach, transGen_old hR hx hnew hv]
      refine ⟨fun ha => ⟨(hR.transGen ha.2).2, ha.2⟩,
        fun ha => ⟨Finset.mem_insert_of_mem ha.1, ha.2⟩⟩
    rw [hset, hold v hv, h v hv]

lemma Exact.add_sink (h : Exact N R w f) (hR : Within N R) (hx : x ∉ N) (hP : ∀ p, P p → p ∈ N)
    (hnew : ∀ c p, R' c p ↔ R c p ∨ p = x ∧ P c) (S : List V)
    (hS : ∀ v ∈ N, v ∈ S ↔ ∃ p, P p ∧ ReflTransGen R v p)
    (hold : ∀ v ∈ N, f' v = f v + if v ∈ S then w x else 0) (hf : f' x = w x) :
    Exact (insert x N) R' w f' := by
  have hnew' : ∀ c p, Function.swap R' c p ↔ Function.swap R c p ∨ c = x ∧ P p :=
    fun c p => hnew p c
  intro v hv
  rcases Finset.mem_insert.mp hv with rfl | hv
  · have hset : reach (insert v N) R' v = ∅ := by
      refine Finset.eq_empty_of_forall_notMem fun a ha => ?_
      obtain ⟨b, hvb, -⟩ := TransGen.head'_iff.mp ((mem_reach _ _ _ _).mp ha).2
      rcases (hnew _ _).mp hvb with hvb | ⟨-, hvb⟩
      · exact hx (hR _ _ hvb).1
      · exact hx (hP _ hvb)
    rw [hset, hf, Finset.sum_empty, add_zero]
  · -- the new node is reached exactly from `S`
    have hxv : TransGen R' v x ↔ v ∈ S := by
      rw [hS v hv, ← transGen_swap, transGen_new hR.swap hx hP hnew']
      simp only [reflTransGen_swap]
    have hother : ∀ a ∈ N, TransGen R' v a ↔ TransGen R v a := by
      intro a ha
      rw [← transGen_swap, transGen_old hR.swap hx hnew' ha, transGen_swap]
    have hnot : x ∉ reach N R v := fun hxv => hx ((mem_reach _ _ _ _).mp hxv).1
    by_cases hmem : v ∈ S
    · have hset : reach (insert x N) R' v = insert x (reach N R v) := by
        ext a
        rw [mem_reach, Finset.mem_insert, Finset.mem_insert, mem_reach]
        constructor
        · rintro ⟨rfl | ha, hva⟩
          · exact Or.inl rfl
          · exact Or.inr ⟨ha, (hother a ha).mp hva⟩
        · rintro (rfl | ⟨ha, hva⟩)
          · exact ⟨Or.inl rfl, hxv.mpr hmem⟩
          · exact ⟨Or.inr ha, (hother a ha).mpr hva⟩
      rw [hset, Finset.sum_insert hnot, hold v hv, if_pos hmem, h v hv]
      abel
    · have hset : reach (insert x N) R' v = reach N R v := by
        ext a
        rw [mem_reach, Finset.mem_insert, mem_reach]
        constructor
        · rintro ⟨rfl | ha, hva⟩
          · exact absurd (hxv.mp hva) hmem
          · exact ⟨ha, (hother a ha).mp hva⟩
        · exact fun ha => ⟨Or.inr ha.1, (hother a ha.1).mpr ha.2⟩
      rw [hset, hold v hv, if_neg hmem, add_zero, h v hv]

variable {D : Finset V}

/-- The set is closed under the relation in one direction. -/
def Closed (R : V → V → Prop) (D : Finset V) : Prop :=
  (∀ a b, R a b → a ∈ D → b ∈ D) ∨ ∀ a b, R a b → b ∈ D → a ∈ D

omit [DecidableEq V] in
lemma Closed.swap (h : Closed R D) : Closed (Function.swap R) D := by
  rcases h with h | h
  · exact Or.inr fun a b hab hb => h b a hab hb
  · exact Or.inl fun a b hab ha => h b a hab ha

omit [DecidableEq V] in
lemma transGen_restrict (hD : Closed R D) (hrest : ∀ a b, R' a b ↔ R a b ∧ a ∉ D ∧ b ∉ D) {v a : V}
    (hv : v ∉ D) (ha : a ∉ D) : TransGen R' v a ↔ TransGen R v a := by
  refine ⟨TransGen.mono (fun a b h => ((hrest a b).mp h).1) v a, fun h => ?_⟩
  rcases hD with hD | hD
  · have hpath : TransGen R' v a ∧ v ∉ D := by
      clear hv
      induction h using TransGen.head_induction_on with
      | single hb =>
        have hb' := fun hd => ha (hD _ _ hb hd)
        exact ⟨.single ((hrest _ _).mpr ⟨hb, hb', ha⟩), hb'⟩
      | head hb _ ih =>
        have hb' := fun hd => ih.2 (hD _ _ hb hd)
        exact ⟨.head ((hrest _ _).mpr ⟨hb, hb', ih.2⟩) ih.1, hb'⟩
    exact hpath.1
  · have hpath : TransGen R' v a ∧ a ∉ D := by
      clear ha
      induction h with
      | single hb =>
        have hb' := fun hd => hv (hD _ _ hb hd)
        exact ⟨.single ((hrest _ _).mpr ⟨hb, hv, hb'⟩), hb'⟩
      | tail _ hb ih =>
        have hb' := fun hd => ih.2 (hD _ _ hb hd)
        exact ⟨.tail ih.1 ((hrest _ _).mpr ⟨hb, ih.2, hb'⟩), hb'⟩
    exact hpath.1

lemma Exact.remove (h : Exact N R w f) (hD : Closed R D) (hDN : D ⊆ N)
    (hrest : ∀ a b, R' a b ↔ R a b ∧ a ∉ D ∧ b ∉ D) (T : V → Finset V)
    (hT : ∀ v ∈ N, v ∉ D → ∀ a, a ∈ T v ↔ a ∈ D ∧ TransGen R v a)
    (hf : ∀ v ∈ N, v ∉ D → f' v = f v - ∑ a ∈ T v, w a) : Exact (N \ D) R' w f' := by
  intro v hv
  obtain ⟨hvN, hvD⟩ := Finset.mem_sdiff.mp hv
  have hsub : T v ⊆ reach N R v := by
    intro a ha
    obtain ⟨haD, hva⟩ := (hT v hvN hvD a).mp ha
    exact (mem_reach _ _ _ _).mpr ⟨hDN haD, hva⟩
  have hset : reach (N \ D) R' v = reach N R v \ T v := by
    ext a
    rw [mem_reach, Finset.mem_sdiff, Finset.mem_sdiff, mem_reach, hT v hvN hvD]
    constructor
    · rintro ⟨⟨haN, haD⟩, hva⟩
      exact ⟨⟨haN, (transGen_restrict hD hrest hvD haD).mp hva⟩, fun ha => haD ha.1⟩
    · rintro ⟨⟨haN, hva⟩, hnot⟩
      have haD : a ∉ D := fun haD => hnot ⟨haD, hva⟩
      exact ⟨⟨haN, haD⟩, (transGen_restrict hD hrest hvD haD).mpr hva⟩
  rw [hset, hf v hvN hvD, h v hvN, ← Finset.sum_sdiff hsub]
  abel

lemma Exact.reweigh {w' : V → A} (h : Exact N R w f) (hx : x ∈ N) (δ : A) (S : List V)
    (hS : ∀ v ∈ N, v ∈ S ↔ TransGen R v x) (hw : ∀ v, w' v = w v + if v = x then δ else 0)
    (hf : ∀ v ∈ N, f' v = f v + ((if v = x then δ else 0) + if v ∈ S then δ else 0)) :
    Exact N R w' f' := by
  intro v hv
  have hmem : x ∈ reach N R v ↔ v ∈ S := by
    rw [mem_reach, hS v hv]
    exact ⟨fun h => h.2, fun h => ⟨hx, h⟩⟩
  have hsum : ∑ a ∈ reach N R v, w' a = ∑ a ∈ reach N R v, w a + if v ∈ S then δ else 0 := by
    simp only [hw, Finset.sum_add_distrib, Finset.sum_ite_eq', hmem]
  rw [hsum, hf v hv, h v hv, hw]
  abel

lemma Exact.extend (h : Exact N R w f) (T : V → Finset V)
    (hT : ∀ v ∈ N, ∀ a ∈ N, TransGen R' v a ↔ TransGen R v a ∨ a ∈ T v)
    (hTN : ∀ v ∈ N, T v ⊆ N) (hdisj : ∀ v ∈ N, ∀ a ∈ T v, ¬ TransGen R v a)
    (hf : ∀ v ∈ N, f' v = f v + ∑ a ∈ T v, w a) : Exact N R' w f' := by
  intro v hv
  have hset : reach N R' v = reach N R v ∪ T v := by
    ext a
    rw [mem_reach, Finset.mem_union, mem_reach]
    constructor
    · rintro ⟨ha, hva⟩
      exact ((hT v hv a ha).mp hva).imp (fun h => ⟨ha, h⟩) id
    · rintro (⟨ha, hva⟩ | ha)
      · exact ⟨ha, (hT v hv a ha).mpr (Or.inl hva)⟩
      · exact ⟨hTN v hv ha, (hT v hv a (hTN v hv ha)).mpr (Or.inr ha)⟩
  have hd : Disjoint (reach N R v) (T v) :=
    Finset.disjoint_right.mpr fun a ha hr => hdisj v hv a ha ((mem_reach _ _ _ _).mp hr).2
  rw [hset, Finset.sum_union hd, hf v hv, h v hv]
  abel

section Part

variable {E : V → V → Prop} {L : V → Prop}

omit [DecidableEq V] in
lemma transGen_inside (hclosed : ∀ c p, E c p → L c → L p) {c p : V} (hc : L c)
    (h : TransGen E c p) : L p := by
  induction h with
  | single hcp => exact hclosed _ _ hcp hc
  | tail _ hbp ih => exact hclosed _ _ hbp ih

omit [DecidableEq V] in
/-- What the full relation reaches is reached already, or lies in the part and is reached from
outside. -/
lemma transGen_part_iff (hclosed : ∀ c p, E c p → L c → L p)
    (hR : ∀ c p, R c p ↔ E c p ∧ (L c ∨ ¬ L p)) (c p : V) :
    TransGen E c p ↔ TransGen R c p ∨ (L p ∧ ¬ L c ∧ TransGen E c p) := by
  constructor
  · intro h
    by_cases hc : L c
    · -- from inside the part every step is there
      left
      induction h with
      | single hcp => exact .single ((hR _ _).mpr ⟨hcp, Or.inl hc⟩)
      | tail hcb hbp ih =>
        exact ih.tail ((hR _ _).mpr ⟨hbp, Or.inl (transGen_inside hclosed hc hcb)⟩)
    · by_cases hp : L p
      · exact Or.inr ⟨hp, hc, h⟩
      · -- a path that ends outside never enters
        left
        induction h using TransGen.head_induction_on with
        | single hcp => exact .single ((hR _ _).mpr ⟨hcp, Or.inr hp⟩)
        | head hcb hbp ih =>
          have hb : ¬ L _ := fun hb => hp (transGen_inside hclosed hb hbp)
          exact .head ((hR _ _).mpr ⟨hcb, Or.inr hb⟩) (ih hb)
  · rintro (h | h)
    · exact TransGen.mono (fun c p h => ((hR c p).mp h).1) c p h
    · exact h.2.2

omit [DecidableEq V] in
lemma not_transGen_into (hR : ∀ c p, R c p ↔ E c p ∧ (L c ∨ ¬ L p)) {c p : V} (hc : ¬ L c)
    (h : TransGen R c p) : ¬ L p := by
  induction h with
  | single hcp => exact ((hR _ _).mp hcp).2.resolve_left hc
  | tail _ hbp ih => exact ((hR _ _).mp hbp).2.resolve_left ih

omit [DecidableEq V] in
lemma acyclic_of_part (hclosed : ∀ c p, E c p → L c → L p)
    (hR : ∀ c p, R c p ↔ E c p ∧ (L c ∨ ¬ L p)) (h : ∀ v, ¬ TransGen R v v) (v : V) :
    ¬ TransGen E v v := by
  intro hv
  rcases (transGen_part_iff hclosed hR v v).mp hv with hv | ⟨hin, hout, -⟩
  · exact h v hv
  · exact hout hin

lemma Exact.join (h : Exact N R w f) (hclosed : ∀ c p, E c p → L c → L p)
    (hR : ∀ c p, R c p ↔ E c p ∧ (L c ∨ ¬ L p)) (T : V → Finset V)
    (hT : ∀ v ∈ N, ∀ a, a ∈ T v ↔ a ∈ N ∧ L a ∧ ¬ L v ∧ TransGen E v a)
    (hf : ∀ v ∈ N, f' v = f v + ∑ a ∈ T v, w a) : Exact N E w f' := by
  refine h.extend T (fun v hv a ha => ?_) (fun v hv a ha => ((hT v hv a).mp ha).1)
    (fun v hv a ha hva => ?_) hf
  · rw [transGen_part_iff hclosed hR, hT v hv]
    tauto
  · obtain ⟨-, hin, hout, -⟩ := (hT v hv a).mp ha
    exact not_transGen_into hR hout hva hin

lemma Exact.join_swap (h : Exact N (Function.swap R) w f) (hclosed : ∀ c p, E c p → L c → L p)
    (hR : ∀ c p, R c p ↔ E c p ∧ (L c ∨ ¬ L p)) (T : V → Finset V)
    (hT : ∀ v ∈ N, ∀ a, a ∈ T v ↔ a ∈ N ∧ L v ∧ ¬ L a ∧ TransGen E a v)
    (hf : ∀ v ∈ N, f' v = f v + ∑ a ∈ T v, w a) : Exact N (Function.swap E) w f' := by
  refine h.extend T (fun v hv a ha => ?_) (fun v hv a ha => ((hT v hv a).mp ha).1)
    (fun v hv a ha hva => ?_) hf
  · have hE : TransGen (Function.swap E) v a ↔ TransGen E a v := transGen_swap
    have hold : TransGen (Function.swap R) v a ↔ TransGen R a v := transGen_swap
    rw [hE, hold, transGen_part_iff hclosed hR, hT v hv]
    tauto
  · obtain ⟨-, hin, hout, -⟩ := (hT v hv a).mp ha
    exact not_transGen_into hR hout (transGen_swap.mp hva) hin

end Part

end

end DagSums
