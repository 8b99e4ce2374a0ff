import Mathlib.Logic.Relation
import Mathlib.Data.Finset.Card
import Mathlib.Data.Finset.Dedup
import Mathlib.Data.Finset.SDiff
import Mathlib.Data.List.Lattice

/-!
# Reachability with a worklist

The loop `take an element from the stage, record it, stage its successors that
are not recorded`, on lists that stand for sets. The loop gets fuel; the number
of nodes that are not recorded yet is enough of it.
-/

namespace Worklist

open Relation List Function Option

variable {V : Type} [DecidableEq V]

def stageNew (done stage vs : List V) : List V :=
  vs.foldl (fun s c => if c ∈ done then s else s.insert c) stage

def walk (next : V → List V) : Nat → List V → List V → List V
  | 0, _, done => done
  | _ + 1, [], done => done
  | n + 1, v :: stage, done =>
    walk next n (stageNew (done.insert v) stage (next v)) (done.insert v)

/-- One successor in a walk with a cache: what a cached successor reaches is recorded at once. -/
def stageCached (cached : V → Option (List V)) (s : List V × List V) (c : V) : List V × List V :=
  match cached c with
  | some cs => (s.1, cs ∪ s.2)
  | none => if c ∈ s.2 then s else (s.1.insert c, s.2)

/-- The loop with a cache of what some elements reach; such elements are not walked through. -/
def walkCached (next : V → List V) (cached : V → Option (List V)) : Nat → List V → List V → List V
  | 0, _, done => done
  | _ + 1, [], done => done
  | n + 1, v :: stage, done =>
    let s := (next v).foldl (stageCached cached) (stage, done.insert v)
    walkCached next cached n s.1 s.2

def Next (next : V → List V) (a b : V) : Prop := b ∈ next a

lemma mem_stageNew (done stage vs : List V) (x : V) :
    x ∈ stageNew done stage vs ↔ x ∈ stage ∨ (x ∈ vs ∧ x ∉ done) := by
  induction vs generalizing stage with
  | nil => simp [stageNew]
  | cons c vs ih =>
    rw [stageNew, foldl_cons]
    refine (ih _).trans ?_
    by_cases hc : c ∈ done
    · rw [if_pos hc, mem_cons]
      constructor
      · rintro (h | ⟨h, hx⟩)
        · exact .inl h
        · exact .inr ⟨.inr h, hx⟩
      · rintro (h | ⟨rfl | h, hx⟩)
        · exact .inl h
        · exact absurd hc hx
        · exact .inr ⟨h, hx⟩
    · rw [if_neg hc, mem_insert_iff, mem_cons]
      constructor
      · rintro ((rfl | h) | ⟨h, hx⟩)
        · exact .inr ⟨.inl rfl, hc⟩
        · exact .inl h
        · exact .inr ⟨.inr h, hx⟩
      · rintro (h | ⟨rfl | h, hx⟩)
        · exact .inl (.inr h)
        · exact .inl (.inl rfl)
        · exact .inr ⟨h, hx⟩

lemma nodup_stageNew (done stage vs : List V) (h : stage.Nodup) :
    (stageNew done stage vs).Nodup := by
  induction vs generalizing stage with
  | nil => exact h
  | cons c vs ih =>
    rw [stageNew, foldl_cons]
    refine ih _ ?_
    split
    · exact h
    · exact h.insert

omit [DecidableEq V] in
lemma reached_of_closed (next : V → List V) (done stage : List V)
    (hclosed : ∀ x ∈ done, ∀ c ∈ next x, c ∈ done ∨ c ∈ stage) (y x : V) (hy : y ∈ done)
    (h : ReflTransGen (Next next) y x) : x ∈ done ∨ ∃ s ∈ stage, ReflTransGen (Next next) s x := by
  induction h using ReflTransGen.head_induction_on with
  | refl => exact .inl hy
  | head hyc hcx ih =>
    rcases hclosed _ hy _ hyc with hc | hc
    · exact ih hc
    · exact .inr ⟨_, hc, hcx⟩

omit [DecidableEq V] in
lemma mem_of_reached {next : V → List V} {nodes : Finset V}
    (hnext : ∀ v ∈ nodes, ∀ c ∈ next v, c ∈ nodes) {s x : V} (hs : s ∈ nodes)
    (h : ReflTransGen (Next next) s x) : x ∈ nodes := by
  induction h with
  | refl => exact hs
  | tail _ hbc ih => exact hnext _ ih _ hbc

/-- What a run of the loop starts from: everything is a node, the stage has no duplicates and
nothing recorded, and successors of recorded elements are recorded or staged. -/
structure Started (next : V → List V) (nodes : Finset V) (stage done : List V) : Prop where
  next_mem : ∀ v ∈ nodes, ∀ c ∈ next v, c ∈ nodes
  stage_mem : ∀ v ∈ stage, v ∈ nodes
  done_mem : ∀ v ∈ done, v ∈ nodes
  nodup : stage.Nodup
  fresh : ∀ v ∈ stage, v ∉ done
  closed : ∀ x ∈ done, ∀ c ∈ next x, c ∈ done ∨ c ∈ stage

lemma Started.step {next : V → List V} {nodes : Finset V} {v : V} {stage done : List V}
    (h : Started next nodes (v :: stage) done) :
    Started next nodes (stageNew (done.insert v) stage (next v)) (done.insert v) := by
  have hv : v ∈ nodes := h.stage_mem v mem_cons_self
  have hnodup := nodup_cons.mp h.nodup
  refine ⟨h.next_mem, fun x hx => ?_, fun x hx => ?_, nodup_stageNew _ _ _ hnodup.2, fun x hx => ?_,
    fun x hx c hc => ?_⟩
  · rcases (mem_stageNew _ _ _ _).mp hx with hx | ⟨hx, -⟩
    · exact h.stage_mem x (mem_cons_of_mem v hx)
    · exact h.next_mem v hv x hx
  · rcases mem_insert_iff.mp hx with rfl | hx
    · exact hv
    · exact h.done_mem x hx
  · rcases (mem_stageNew _ _ _ _).mp hx with hx | ⟨-, hx⟩
    · rw [mem_insert_iff, not_or]
      exact ⟨fun heq => hnodup.1 (heq ▸ hx), h.fresh x (mem_cons_of_mem v hx)⟩
    · exact hx
  · by_cases hdone : c ∈ done.insert v
    · exact .inl hdone
    · refine .inr ((mem_stageNew _ _ _ _).mpr ?_)
      rcases mem_insert_iff.mp hx with rfl | hx
      · exact .inr ⟨hc, hdone⟩
      · rcases h.closed x hx c hc with hold | hold
        · exact absurd (mem_insert_of_mem hold) hdone
        · rcases mem_cons.mp hold with rfl | hold
          · exact absurd mem_insert_self hdone
          · exact .inl hold

lemma card_sdiff_insert_le {nodes P : Finset V} {v : V} {n : Nat} (hv : v ∈ nodes) (hfresh : v ∉ P)
    (h : (nodes \ P).card ≤ n + 1) : (nodes \ insert v P).card ≤ n := by
  have hmem : v ∈ nodes \ P := Finset.mem_sdiff.mpr ⟨hv, hfresh⟩
  have hcard := Finset.card_erase_of_mem hmem
  rw [Finset.sdiff_insert]
  omega

lemma toFinset_insert (done : List V) (v : V) : (done.insert v).toFinset =
    insert v done.toFinset := by
  ext x
  simp

lemma stage_eq_nil {nodes P : Finset V} {stage : List V} (hmem : ∀ v ∈ stage, v ∈ nodes)
    (hfresh : ∀ v ∈ stage, v ∉ P) (h : (nodes \ P).card ≤ 0) : stage = [] := by
  refine eq_nil_iff_forall_not_mem.mpr fun v hv => ?_
  have hin : v ∈ nodes \ P := Finset.mem_sdiff.mpr ⟨hmem v hv, hfresh v hv⟩
  rw [Finset.card_eq_zero.mp (Nat.le_zero.mp h)] at hin
  exact Finset.notMem_empty v hin

lemma mem_walk_iff (next : V → List V) (nodes : Finset V) (n : Nat) (stage done : List V)
    (h : Started next nodes stage done) (hfuel : (nodes \ done.toFinset).card ≤ n) (x : V) :
    x ∈ walk next n stage done ↔ x ∈ done ∨ ∃ s ∈ stage, ReflTransGen (Next next) s x := by
  induction n generalizing stage done with
  | zero =>
    have hempty := stage_eq_nil h.stage_mem (fun v hv => by simpa using h.fresh v hv) hfuel
    rw [hempty, walk]
    simp
  | succ n ih =>
    cases stage with
    | nil => simp [walk]
    | cons v stage =>
      have hless : (nodes \ (done.insert v).toFinset).card ≤ n := by
        rw [toFinset_insert]
        have hfresh := h.fresh v mem_cons_self
        exact card_sdiff_insert_le (h.stage_mem v mem_cons_self) (by simpa using hfresh) hfuel
      have hstep := h.step
      rw [walk, ih _ _ hstep hless]
      constructor
      · rintro (hx | ⟨s, hs, hsx⟩)
        · rcases mem_insert_iff.mp hx with rfl | hx
          · exact .inr ⟨_, mem_cons_self, .refl⟩
          · exact .inl hx
        · rcases (mem_stageNew _ _ _ _).mp hs with hs | ⟨hs, -⟩
          · exact .inr ⟨s, mem_cons_of_mem v hs, hsx⟩
          · exact .inr ⟨v, mem_cons_self, .head hs hsx⟩
      · rintro (hx | ⟨s, hs, hsx⟩)
        · exact .inl (mem_insert_of_mem hx)
        · rcases mem_cons.mp hs with rfl | hs
          · exact reached_of_closed next _ _ hstep.closed s x mem_insert_self hsx
          · exact .inr ⟨s, (mem_stageNew _ _ _ _).mpr (.inl hs), hsx⟩

lemma nodup_walk (next : V → List V) (n : Nat) (stage done : List V) (h : done.Nodup) :
    (walk next n stage done).Nodup := by
  induction n generalizing stage done with
  | zero => exact h
  | succ n ih =>
    cases stage with
    | nil => exact h
    | cons v stage => exact ih _ _ h.insert

section Cached

variable (next : V → List V) (cached : V → Option (List V)) (inner : V → Prop)

/-- A cache is right when it says which of the elements in question are reached; it is kept for
elements that are not in question themselves, and successors of elements in question are in
question. -/
structure Right : Prop where
  closed : ∀ x, inner x → ∀ c ∈ next x, inner c
  outer : ∀ c cs, cached c = some cs → ¬ inner c
  mem : ∀ c cs, cached c = some cs → ∀ d, d ∈ cs ↔ inner d ∧ TransGen (Next next) c d

/-- The state of the loop inside a step: `walked` are the elements taken from the stage so far,
`todo` the successors of the last one that are still to be looked at. -/
structure Walking (nodes : Finset V) (start : List V) (walked : Finset V)
    (stage todo done : List V) : Prop where
  stage_mem : ∀ v ∈ stage, v ∈ nodes
  nodup : stage.Nodup
  fresh : ∀ v ∈ stage, v ∉ walked
  walked_mem : ∀ v ∈ walked, v ∈ done
  sound : ∀ v, v ∈ stage ∨ v ∈ todo ∨ v ∈ done → ∃ s ∈ start, ReflTransGen (Next next) s v
  start_mem : ∀ s ∈ start, s ∈ done ∨ s ∈ stage
  closed : ∀ x ∈ done, ∀ y ∈ next x, y ∈ done ∨ y ∈ stage ∨ y ∈ todo ∨
    ∃ cs, cached y = some cs ∧ ∀ d ∈ cs, d ∈ done

variable {next cached inner} {nodes : Finset V} {start stage todo done : List V} {walked : Finset V}

lemma Walking.take {v : V} (h : Walking next cached nodes start walked (v :: stage) [] done) :
    Walking next cached nodes start (insert v walked) stage (next v) (done.insert v) := by
  have hnodup := nodup_cons.mp h.nodup
  have hv := h.sound v (.inl mem_cons_self)
  refine ⟨fun x hx => h.stage_mem x (mem_cons_of_mem v hx), hnodup.2, fun x hx => ?_,
    fun x hx => ?_, fun x hx => ?_, fun s hs => ?_, fun x hx y hy => ?_⟩
  · rw [Finset.mem_insert, not_or]
    exact ⟨fun heq => hnodup.1 (heq ▸ hx), h.fresh x (mem_cons_of_mem v hx)⟩
  · rcases Finset.mem_insert.mp hx with rfl | hx
    · exact mem_insert_self
    · exact mem_insert_of_mem (h.walked_mem x hx)
  · rcases hx with hx | hx | hx
    · exact h.sound x (.inl (mem_cons_of_mem v hx))
    · obtain ⟨s, hs, hsv⟩ := hv
      exact ⟨s, hs, hsv.tail hx⟩
    · rcases mem_insert_iff.mp hx with rfl | hx
      · exact hv
      · exact h.sound x (.inr (.inr hx))
  · rcases h.start_mem s hs with hs | hs
    · exact .inl (mem_insert_of_mem hs)
    · rcases mem_cons.mp hs with rfl | hs
      · exact .inl mem_insert_self
      · exact .inr hs
  · rcases mem_insert_iff.mp hx with rfl | hx
    · exact .inr (.inr (.inl hy))
    · rcases h.closed x hx y hy with hold | hold | hold | ⟨cs, hcs, hsub⟩
      · exact .inl (mem_insert_of_mem hold)
      · rcases mem_cons.mp hold with rfl | hold
        · exact .inl mem_insert_self
        · exact .inr (.inl hold)
      · exact absurd hold not_mem_nil
      · exact .inr (.inr (.inr ⟨cs, hcs, fun d hd => mem_insert_of_mem (hsub d hd)⟩))

/-- A cached successor adds all that it reaches. -/
lemma Walking.useCache (hright : Right next cached inner) {c : V} {cs : List V}
    (h : Walking next cached nodes start walked stage (c :: todo) done)
    (hcached : cached c = some cs) :
    Walking next cached nodes start walked stage todo (cs ∪ done) := by
  obtain ⟨s, hs, hsc⟩ := h.sound c (.inr (.inl mem_cons_self))
  refine ⟨h.stage_mem, h.nodup, h.fresh, fun x hx => ?_, fun x hx => ?_, fun s hs => ?_,
    fun x hx y hy => ?_⟩
  · exact mem_union_iff.mpr (.inr (h.walked_mem x hx))
  · rcases hx with hx | hx | hx
    · exact h.sound x (.inl hx)
    · exact h.sound x (.inr (.inl (mem_cons_of_mem c hx)))
    · rcases mem_union_iff.mp hx with hx | hx
      · exact ⟨s, hs, hsc.trans ((hright.mem c cs hcached x).mp hx).2.to_reflTransGen⟩
      · exact h.sound x (.inr (.inr hx))
  · rcases h.start_mem s hs with hs | hs
    · exact .inl (mem_union_iff.mpr (.inr hs))
    · exact .inr hs
  · rcases mem_union_iff.mp hx with hx | hx
    · -- what the cache adds brings its successors along
      obtain ⟨hin, hpath⟩ := (hright.mem c cs hcached x).mp hx
      refine .inl (mem_union_iff.mpr (.inl ?_))
      exact (hright.mem c cs hcached y).mpr ⟨hright.closed x hin y hy, hpath.tail hy⟩
    · rcases h.closed x hx y hy with hold | hold | hold | ⟨cs', hcs', hsub⟩
      · exact .inl (mem_union_iff.mpr (.inr hold))
      · exact .inr (.inl hold)
      · rcases mem_cons.mp hold with rfl | hold
        · exact .inr (.inr (.inr ⟨cs, hcached, fun d hd => mem_union_iff.mpr (.inl hd)⟩))
        · exact .inr (.inr (.inl hold))
      · exact .inr (.inr (.inr ⟨cs', hcs', fun d hd => mem_union_iff.mpr (.inr (hsub d hd))⟩))

omit [DecidableEq V] in
lemma Walking.skip {c : V} (h : Walking next cached nodes start walked stage (c :: todo) done)
    (hdone : c ∈ done) : Walking next cached nodes start walked stage todo done := by
  refine { h with sound := fun x hx => ?_, closed := fun x hx y hy => ?_ }
  · exact h.sound x (hx.imp_right (Or.imp_left (mem_cons_of_mem c)))
  · rcases h.closed x hx y hy with hold | hold | hold | hold
    · exact .inl hold
    · exact .inr (.inl hold)
    · rcases mem_cons.mp hold with rfl | hold
      · exact .inl hdone
      · exact .inr (.inr (.inl hold))
    · exact .inr (.inr (.inr hold))

lemma Walking.stageNew {c : V} (h : Walking next cached nodes start walked stage (c :: todo) done)
    (hmem : c ∈ nodes) (hdone : c ∉ done) :
    Walking next cached nodes start walked (stage.insert c) todo done := by
  refine ⟨fun x hx => ?_, h.nodup.insert, fun x hx => ?_, h.walked_mem, fun x hx => ?_,
    fun s hs => ?_, fun x hx y hy => ?_⟩
  · rcases mem_insert_iff.mp hx with rfl | hx
    · exact hmem
    · exact h.stage_mem x hx
  · rcases mem_insert_iff.mp hx with rfl | hx
    · exact fun hwalked => hdone (h.walked_mem x hwalked)
    · exact h.fresh x hx
  · rcases hx with hx | hx | hx
    · rcases mem_insert_iff.mp hx with rfl | hx
      · exact h.sound x (.inr (.inl mem_cons_self))
      · exact h.sound x (.inl hx)
    · exact h.sound x (.inr (.inl (mem_cons_of_mem c hx)))
    · exact h.sound x (.inr (.inr hx))
  · exact (h.start_mem s hs).imp_right mem_insert_of_mem
  · rcases h.closed x hx y hy with hold | hold | hold | hold
    · exact .inl hold
    · exact .inr (.inl (mem_insert_of_mem hold))
    · rcases mem_cons.mp hold with rfl | hold
      · exact .inr (.inl mem_insert_self)
      · exact .inr (.inr (.inl hold))
    · exact .inr (.inr (.inr hold))

lemma Walking.look (hright : Right next cached inner) (hnext : ∀ v ∈ nodes, ∀ c ∈ next v, c ∈ nodes)
    (hstart : ∀ s ∈ start, s ∈ nodes) {c : V}
    (h : Walking next cached nodes start walked stage (c :: todo) done) :
    Walking next cached nodes start walked (stageCached cached (stage, done) c).1 todo
      (stageCached cached (stage, done) c).2 := by
  cases hcached : cached c with
  | some cs =>
    simp only [stageCached, hcached]
    exact h.useCache hright hcached
  | none =>
    obtain ⟨s, hs, hsc⟩ := h.sound c (.inr (.inl mem_cons_self))
    by_cases hdone : c ∈ done
    · simp only [stageCached, hcached, if_pos hdone]
      exact h.skip hdone
    · simp only [stageCached, hcached, if_neg hdone]
      exact h.stageNew (mem_of_reached hnext (hstart s hs) hsc) hdone

lemma Walking.lookAll (hright : Right next cached inner)
    (hnext : ∀ v ∈ nodes, ∀ c ∈ next v, c ∈ nodes) (hstart : ∀ s ∈ start, s ∈ nodes)
    (h : Walking next cached nodes start walked stage todo done) :
    Walking next cached nodes start walked (todo.foldl (stageCached cached) (stage, done)).1 []
      (todo.foldl (stageCached cached) (stage, done)).2 := by
  induction todo generalizing stage done with
  | nil => exact h
  | cons c todo ih => exact ih (h.look hright hnext hstart)

omit [DecidableEq V] in
lemma Walking.exit (hright : Right next cached inner)
    (h : Walking next cached nodes start walked [] [] done) (d : V) (hd : inner d) :
    d ∈ done ↔ ∃ s ∈ start, ReflTransGen (Next next) s d := by
  refine ⟨fun hdone => h.sound d (.inr (.inr hdone)), ?_⟩
  rintro ⟨s, hs, hsd⟩
  have hdone : s ∈ done := (h.start_mem s hs).resolve_right not_mem_nil
  clear hs
  induction hsd using ReflTransGen.head_induction_on with
  | refl => exact hdone
  | head hxy hyd ih =>
    rcases h.closed _ hdone _ hxy with hy | hy | hy | ⟨cs, hcs, hsub⟩
    · exact ih hy
    · exact absurd hy not_mem_nil
    · exact absurd hy not_mem_nil
    · -- a cached element is not in question, so the path goes on below it
      rcases hyd.cases_head with rfl | ⟨z, hyz, hzd⟩
      · exact absurd hd (hright.outer _ cs hcs)
      · exact hsub d ((hright.mem _ cs hcs d).mpr ⟨hd, TransGen.head' hyz hzd⟩)

lemma Walking.mem_iff (hright : Right next cached inner)
    (hnext : ∀ v ∈ nodes, ∀ c ∈ next v, c ∈ nodes) (hstart : ∀ s ∈ start, s ∈ nodes) (n : Nat)
    (h : Walking next cached nodes start walked stage [] done) (hfuel : (nodes \ walked).card ≤ n)
    (d : V) (hd : inner d) :
    d ∈ walkCached next cached n stage done ↔ ∃ s ∈ start, ReflTransGen (Next next) s d := by
  induction n generalizing stage done walked with
  | zero =>
    obtain rfl := stage_eq_nil h.stage_mem h.fresh hfuel
    exact h.exit hright d hd
  | succ n ih =>
    cases stage with
    | nil => exact h.exit hright d hd
    | cons v stage =>
      have hv := h.stage_mem v mem_cons_self
      have hless := card_sdiff_insert_le hv (h.fresh v mem_cons_self) hfuel
      exact ih (h.take.lookAll hright hnext hstart) hless

lemma nodup_stageCached (s : List V × List V) (c : V) (h : s.2.Nodup) :
    (stageCached cached s c).2.Nodup := by
  unfold stageCached
  split
  · exact h.union _
  · split
    · exact h
    · exact h

lemma nodup_walkCached (n : Nat) (h : done.Nodup) :
    (walkCached next cached n stage done).Nodup := by
  induction n generalizing stage done with
  | zero => exact h
  | succ n ih =>
    cases stage with
    | nil => exact h
    | cons v stage =>
      refine ih ?_
      have hfold : ∀ (cs : List V) (s : List V × List V), s.2.Nodup →
          (cs.foldl (stageCached cached) s).2.Nodup := by
        intro cs
        induction cs with
        | nil => exact fun s hs => hs
        | cons c cs ihc => exact fun s hs => ihc _ (nodup_stageCached s c hs)
      exact hfold _ _ h.insert

end Cached

end Worklist
