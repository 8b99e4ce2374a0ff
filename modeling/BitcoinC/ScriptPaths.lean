import BitcoinC.AddressIndex

/-!
# The branches of a conditional coinstake script

Three functions of `script/interpreter.cpp` take a conditional coinstake script
apart.
-/

namespace ScriptPaths

open Primitives Scripts AddressIndex Option

/-- The scan of the two path functions: the path starts `skip` bytes after `opener` and ends before
the next `closer`. -/
def pathLoop (s : Bytes) (opener : UInt8) (skip : Nat) (closer : UInt8) :
    Nat → Nat → Option Nat → Option Bytes
  | 0, _, _ => none
  | fuel + 1, pc, start =>
    match getScriptOp s pc with
    | none => none
    | some (opcode, _, pc') =>
      match start with
      | none =>
        if opcode = opener then pathLoop s opener skip closer fuel (pc' + skip) (some (pc' + skip))
        else pathLoop s opener skip closer fuel pc' none
      | some st =>
        if opcode = closer then some (slice s st (pc' - 1))
        else pathLoop s opener skip closer fuel pc' (some st)

def getCoinstakeScriptPath (s : Bytes) : Option Bytes :=
  pathLoop s OP_ISCOINSTAKE 1 OP_ELSE s.length 0 none

lemma nonCoinstakePathLoop_eq (s : Bytes) (fuel pc : Nat) (start : Option Nat) :
    nonCoinstakePathLoop s fuel pc start = pathLoop s OP_ELSE 0 OP_ENDIF fuel pc start := by
  induction fuel generalizing pc start with
  | zero => rfl
  | succ fuel ih =>
    cases hread : getScriptOp s pc with
    | none => simp [nonCoinstakePathLoop, pathLoop, hread]
    | some op =>
      cases start with
      | none =>
        simp only [nonCoinstakePathLoop, pathLoop, hread, ih, Nat.add_zero]
        split_ifs <;> rfl
      | some st => simp only [nonCoinstakePathLoop, pathLoop, hread, ih]

lemma pushSize_bound {opcode : UInt8} {rest : Bytes} {nSize k : Nat}
    (h : pushSize opcode rest = some (nSize, k)) : k ≤ rest.length := by
  unfold pushSize at h
  split_ifs at h with hsmall
  · obtain ⟨-, rfl⟩ := Prod.mk.inj (some.inj h)
    omega
  all_goals
    simp only [ite_none_left_eq_some, some.injEq, Prod.mk.injEq] at h
    omega

lemma getScriptOp_bound {s : Bytes} {pc pc' : Nat} {opcode : UInt8} {data : Bytes}
    (h : getScriptOp s pc = some (opcode, data, pc')) : pc < pc' ∧ pc' ≤ s.length := by
  unfold getScriptOp at h
  cases hs : s.drop pc with
  | nil => simp [hs] at h
  | cons op rest =>
    have hlen : rest.length + 1 = s.length - pc := by rw [← List.length_drop, hs, List.length_cons]
    simp only [hs] at h
    split_ifs at h
    · cases hp : pushSize op rest with
      | none => simp [hp] at h
      | some size =>
        obtain ⟨nSize, k⟩ := size
        have hk := pushSize_bound hp
        simp only [hp, ite_none_left_eq_some, some.injEq, Prod.mk.injEq] at h
        omega
    · simp only [some.injEq, Prod.mk.injEq] at h
      omega

/-- Reading operations from `pc` on, the first `target` ends at the second position. -/
inductive Seek (s : Bytes) (target : UInt8) : Nat → Nat → Prop
  | found {pc pc' : Nat} {data : Bytes} (h : getScriptOp s pc = some (target, data, pc')) :
    Seek s target pc pc'
  | skip {pc m pc' : Nat} {opcode : UInt8} {data : Bytes}
      (h : getScriptOp s pc = some (opcode, data, m)) (hne : opcode ≠ target)
      (rest : Seek s target m pc') : Seek s target pc pc'

variable {s : Bytes}

variable (fuel : Nat) {target : UInt8} (pc : Nat) {opcode : UInt8} (st : Nat)

lemma Seek.bound {pc q : Nat} (h : Seek s target pc q) : pc < q ∧ q ≤ s.length := by
  induction h with
  | found h => exact getScriptOp_bound h
  | skip h _ _ ih =>
    have := getScriptOp_bound h
    omega

lemma seek_iff_of_read {pc m q : Nat} {data : Bytes}
    (h : getScriptOp s pc = some (opcode, data, m)) :
    Seek s target pc q ↔ if opcode = target then q = m else Seek s target m q := by
  constructor
  · intro hs
    cases hs with
    | found h' =>
      obtain ⟨rfl, -, rfl⟩ : opcode = target ∧ data = _ ∧ m = q := by simpa [h] using h'
      simp
    | skip h' hne rest =>
      obtain ⟨rfl, -, rfl⟩ : opcode = _ ∧ data = _ ∧ m = _ := by simpa [h] using h'
      rwa [if_neg hne]
  · split_ifs with hop
    · rintro rfl
      exact .found (hop ▸ h)
    · exact .skip h hop

lemma not_seek_of_end {pc q : Nat} (h : getScriptOp s pc = none) : ¬ Seek s target pc q := by
  rintro (⟨h'⟩ | ⟨h', -, -⟩) <;> simp [h] at h'

lemma Seek.unique {pc q q' : Nat} (h : Seek s target pc q) (h' : Seek s target pc q') : q = q' := by
  induction h with
  | found h =>
    rw [seek_iff_of_read h, if_pos rfl] at h'
    exact h'.symm
  | skip h hne _ ih =>
    rw [seek_iff_of_read h, if_neg hne] at h'
    exact ih h'

/-- A scan that goes on with `g` behind the first `target` finds what `g` finds there, as long as
there is fuel for the rest of the script. -/
lemma scan_eq_some_iff {β : Type} {f g : Nat → Nat → Option β} {P : Nat → β → Prop}
    (hzero : ∀ pc, f 0 pc = none)
    (hstep : ∀ n pc, f (n + 1) pc = match getScriptOp s pc with
      | none => none
      | some (opcode, _, m) => if opcode = target then g n m else f n m)
    (hg : ∀ n m, s.length ≤ n + m → ∀ r, g n m = some r ↔ P m r)
    (hfuel : s.length ≤ fuel + pc) (r : β) :
    f fuel pc = some r ↔ ∃ q, Seek s target pc q ∧ P q r := by
  induction fuel generalizing pc with
  | zero =>
    simp only [hzero, reduceCtorEq, false_iff, not_exists, not_and]
    intro q hq
    have := hq.bound
    omega
  | succ fuel ih =>
    rw [hstep]
    cases hread : getScriptOp s pc with
    | none => simp [not_seek_of_end hread]
    | some op =>
      obtain ⟨opcode, data, m⟩ := op
      have hm := getScriptOp_bound hread
      simp only [seek_iff_of_read hread]
      split_ifs with hop
      · rw [hg fuel m (by omega)]
        simp
      · exact ih m (by omega)

section Paths

variable {opener closer : UInt8} {skip : Nat}

lemma pathLoop_open (hfuel : s.length ≤ fuel + pc) (r : Bytes) :
    pathLoop s opener skip closer fuel pc (some st) = some r ↔
      ∃ q, Seek s closer pc q ∧ r = slice s st (q - 1) :=
  scan_eq_some_iff (f := fun n pc => pathLoop s opener skip closer n pc (some st)) fuel pc
    (fun _ => rfl) (fun _ _ => rfl) (fun _ _ _ _ => some_inj.trans eq_comm) hfuel r

lemma pathLoop_closed (hfuel : s.length ≤ fuel + pc) (r : Bytes) :
    pathLoop s opener skip closer fuel pc none = some r ↔
      ∃ p q, Seek s opener pc p ∧ Seek s closer (p + skip) q ∧ r = slice s (p + skip) (q - 1) := by
  simp only [exists_and_left]
  exact scan_eq_some_iff (f := fun n pc => pathLoop s opener skip closer n pc none) fuel pc
    (fun _ => rfl) (fun _ _ => rfl)
    (fun n m hm => pathLoop_open n (m + skip) (m + skip) (by omega)) hfuel r

end Paths

lemma getCoinstakeScriptPath_eq_some_iff (r : Bytes) : getCoinstakeScriptPath s = some r ↔
      ∃ p q, Seek s OP_ISCOINSTAKE 0 p ∧ Seek s OP_ELSE (p + 1) q ∧ r = slice s (p + 1) (q - 1) :=
  pathLoop_closed s.length 0 (by omega) r

lemma getNonCoinstakeScriptPath_eq_some_iff (r : Bytes) : getNonCoinstakeScriptPath s = some r ↔
      ∃ q e, Seek s OP_ELSE 0 q ∧ Seek s OP_ENDIF q e ∧ r = slice s q (e - 1) := by
  rw [getNonCoinstakeScriptPath, nonCoinstakePathLoop_eq]
  exact pathLoop_closed s.length 0 (by omega) r

/-- The rest of the splitter's scan, once its second branch has begun at `st` and its first one at
`a`: both begin anew at every `OP_ELSE`, and the scan ends with the `OP_ENDIF` at `e`. -/
inductive Forks (s : Bytes) : Nat → Nat → Nat → Nat → Nat → Nat → Prop
  | close {pc a st e : Nat} {data : Bytes} (h : getScriptOp s pc = some (OP_ENDIF, data, e)) :
      Forks s pc a st a st e
  | fork {pc a st m a' st' e : Nat} {data : Bytes} (h : getScriptOp s pc = some (OP_ELSE, data, m))
      (rest : Forks s m st m a' st' e) : Forks s pc a st a' st' e
  | skip {pc a st m a' st' e : Nat} {opcode : UInt8} {data : Bytes}
      (h : getScriptOp s pc = some (opcode, data, m)) (hend : opcode ≠ OP_ENDIF)
      (helse : opcode ≠ OP_ELSE) (rest : Forks s m a st a' st' e) : Forks s pc a st a' st' e

lemma forks_iff_of_read {pc m a a' st' e : Nat} {data : Bytes}
    (h : getScriptOp s pc = some (opcode, data, m)) : Forks s pc a st a' st' e ↔
      if opcode = OP_ENDIF then a = a' ∧ st = st' ∧ m = e
      else if opcode = OP_ELSE then Forks s m st m a' st' e else Forks s m a st a' st' e := by
  constructor
  · rintro (⟨h'⟩ | ⟨h', rest⟩ | ⟨h', hend, helse, rest⟩)
    · obtain ⟨rfl, -, rfl⟩ : opcode = _ ∧ data = _ ∧ m = _ := by simpa [h] using h'
      simp
    · obtain ⟨rfl, -, rfl⟩ : opcode = _ ∧ data = _ ∧ m = _ := by simpa [h] using h'
      rwa [if_neg (by decide), if_pos rfl]
    · obtain ⟨rfl, -, rfl⟩ : opcode = _ ∧ data = _ ∧ m = _ := by simpa [h] using h'
      rwa [if_neg hend, if_neg helse]
  · split_ifs with hend helse
    · rintro ⟨rfl, rfl, rfl⟩
      exact .close (hend ▸ h)
    · exact .fork (helse ▸ h)
    · exact .skip h hend helse

lemma not_forks_of_end {pc a a' st' e : Nat} (h : getScriptOp s pc = none) :
    ¬ Forks s pc a st a' st' e := by
  rintro (⟨h'⟩ | ⟨h', -⟩ | ⟨h', -⟩) <;> simp [h] at h'

lemma Forks.close_seek {pc a st a' st' e : Nat} (h : Forks s pc a st a' st' e) :
    Seek s OP_ENDIF pc e := by
  induction h with
  | close h => exact .found h
  | fork h _ ih => exact .skip h (by decide) ih
  | skip h hend _ _ ih => exact .skip h hend ih

/-- The branches are the first ones, or begin later. -/
lemma Forks.later {pc a st a' st' e : Nat} (h : Forks s pc a st a' st' e) (hst : st ≤ pc) :
    (a' = a ∧ st' = st) ∨ (st < st' ∧ st' < e) := by
  induction h with
  | close h => exact .inl ⟨rfl, rfl⟩
  | fork h rest ih =>
    have := getScriptOp_bound h
    have := rest.close_seek.bound
    have := ih le_rfl
    omega
  | skip h _ _ _ ih =>
    have := getScriptOp_bound h
    exact ih (by omega)

lemma exists_forks {pc e : Nat} (h : Seek s OP_ENDIF pc e) (a st : Nat) :
    ∃ a' st', Forks s pc a st a' st' e := by
  induction h generalizing a st with
  | found h => exact ⟨a, st, .close h⟩
  | @skip pc m _ opcode _ h hne _ ih =>
    by_cases helse : opcode = OP_ELSE
    · obtain ⟨a', st', hrest⟩ := ih st m
      exact ⟨a', st', .fork (helse ▸ h) hrest⟩
    · obtain ⟨a', st', hrest⟩ := ih a st
      exact ⟨a', st', .skip h hne helse hrest⟩

lemma splitLoop_forks (a : Nat) (hfuel : s.length ≤ fuel + pc) (r : Bytes × Bytes) :
    splitLoop s fuel pc (some st) (some (slice s a (st - 1))) = some r ↔
      ∃ a' st' e, Forks s pc a st a' st' e ∧ r = (slice s a' (st' - 1), slice s st' (e - 1)) := by
  induction fuel generalizing pc st a with
  | zero =>
    simp only [splitLoop, reduceCtorEq, false_iff, not_exists, not_and]
    intro a' st' e h
    have := h.close_seek.bound
    omega
  | succ fuel ih =>
    cases hread : getScriptOp s pc with
    | none => simp [splitLoop, hread, not_forks_of_end st hread]
    | some op =>
      obtain ⟨opcode, data, m⟩ := op
      have hm := getScriptOp_bound hread
      simp only [splitLoop, hread, forks_iff_of_read st hread]
      split_ifs with hend helse
      · simp [eq_comm]
      · exact ih m m st (by omega)
      · exact ih m st a (by omega)

lemma splitLoop_marked (hfuel : s.length ≤ fuel + pc) (r : Bytes × Bytes) :
    splitLoop s fuel pc (some st) none = some r ↔ ∃ q a' st' e, Seek s OP_ELSE pc q ∧
      Forks s q st q a' st' e ∧ r = (slice s a' (st' - 1), slice s st' (e - 1)) := by
  simp only [exists_and_left]
  exact scan_eq_some_iff (f := fun n pc => splitLoop s n pc (some st) none) fuel pc
    (fun _ => rfl) (fun _ _ => rfl) (fun n m hm => splitLoop_forks n m m st hm) hfuel r

lemma splitLoop_start (hfuel : s.length ≤ fuel + pc) (r : Bytes × Bytes) :
    splitLoop s fuel pc none none = some r ↔ ∃ p q a st e, Seek s OP_ISCOINSTAKE pc p ∧
      Seek s OP_ELSE (p + 1) q ∧ Forks s q (p + 1) q a st e ∧
      r = (slice s a (st - 1), slice s st (e - 1)) := by
  simpa only [exists_and_left] using scan_eq_some_iff (f := fun n pc => splitLoop s n pc none none)
    fuel pc (fun _ => rfl) (fun _ _ => rfl)
    (fun n m hm => splitLoop_marked n (m + 1) (m + 1) (by omega)) hfuel r

lemma split_eq_some_iff (r : Bytes × Bytes) : splitConditionalCoinstakeScript s = some r ↔
      ∃ p q a st e, Seek s OP_ISCOINSTAKE 0 p ∧ Seek s OP_ELSE (p + 1) q ∧
        Forks s q (p + 1) q a st e ∧ r = (slice s a (st - 1), slice s st (e - 1)) :=
  splitLoop_start s.length 0 le_rfl r

/-- The splitter and the two path functions return the same branches, and the splitter succeeds when
both of them do. -/
def Agree (s : Bytes) : Prop :=
  (∀ A B, splitConditionalCoinstakeScript s = some (A, B) →
    getCoinstakeScriptPath s = some A ∧ getNonCoinstakeScriptPath s = some B) ∧
  ((getCoinstakeScriptPath s).isSome → (getNonCoinstakeScriptPath s).isSome →
    (splitConditionalCoinstakeScript s).isSome)

/-- The first `OP_ELSE` behind the byte after the marker is the first one at all. -/
def Aligned (s : Bytes) : Prop :=
  ∀ p q, Seek s OP_ISCOINSTAKE 0 p → Seek s OP_ELSE (p + 1) q → Seek s OP_ELSE 0 q

/-- The branches that the splitter ends with, behind a marker at `p` and an `OP_ELSE` at `q`, read
as those of the other two functions, and its scan ends if that of `GetNonCoinstakeScriptPath`
does. -/
structure SameBranches (s : Bytes) (p q : Nat) : Prop where
  branches : ∀ a st e, Forks s q (p + 1) q a st e →
    slice s a (st - 1) = slice s (p + 1) (q - 1) ∧ ∃ q' e', Seek s OP_ELSE 0 q' ∧
      Seek s OP_ENDIF q' e' ∧ slice s st (e - 1) = slice s q' (e' - 1)
  ends : ∀ q' e', Seek s OP_ELSE 0 q' → Seek s OP_ENDIF q' e' → ∃ e, Seek s OP_ENDIF q e

lemma agree_iff_sameBranches (s : Bytes) : Agree s ↔
    ∀ p q, Seek s OP_ISCOINSTAKE 0 p → Seek s OP_ELSE (p + 1) q → SameBranches s p q := by
  constructor
  · rintro ⟨hsame, hboth⟩ p q hp hq
    refine ⟨fun a st e hforks => ?_, fun q' e' hq' he' => ?_⟩
    · obtain ⟨hstake, hspend⟩ :=
        hsame _ _ ((split_eq_some_iff _).mpr ⟨p, q, a, st, e, hp, hq, hforks, rfl⟩)
      obtain ⟨p', q', hp', hq', hA⟩ := (getCoinstakeScriptPath_eq_some_iff _).mp hstake
      obtain rfl := hp.unique hp'
      obtain rfl := hq.unique hq'
      exact ⟨hA, (getNonCoinstakeScriptPath_eq_some_iff _).mp hspend⟩
    · have hstake := (getCoinstakeScriptPath_eq_some_iff _).mpr ⟨p, q, hp, hq, rfl⟩
      have hspend := (getNonCoinstakeScriptPath_eq_some_iff _).mpr ⟨q', e', hq', he', rfl⟩
      obtain ⟨r, hr⟩ := isSome_iff_exists.mp
        (hboth (isSome_iff_exists.mpr ⟨_, hstake⟩) (isSome_iff_exists.mpr ⟨_, hspend⟩))
      obtain ⟨p', q'', a, st, e, hp', hq'', hforks, -⟩ := (split_eq_some_iff r).mp hr
      obtain rfl := hp.unique hp'
      obtain rfl := hq.unique hq''
      exact ⟨e, hforks.close_seek⟩
  · intro h
    refine ⟨fun A B hsplit => ?_, fun hstake hspend => ?_⟩
    · obtain ⟨p, q, a, st, e, hp, hq, hforks, hr⟩ := (split_eq_some_iff _).mp hsplit
      obtain ⟨rfl, rfl⟩ := Prod.mk.inj hr
      obtain ⟨hA, hB⟩ := (h p q hp hq).branches a st e hforks
      exact ⟨(getCoinstakeScriptPath_eq_some_iff _).mpr ⟨p, q, hp, hq, hA⟩,
        (getNonCoinstakeScriptPath_eq_some_iff _).mpr hB⟩
    · obtain ⟨r, hr⟩ := isSome_iff_exists.mp hstake
      obtain ⟨r', hr'⟩ := isSome_iff_exists.mp hspend
      obtain ⟨p, q, hp, hq, -⟩ := (getCoinstakeScriptPath_eq_some_iff r).mp hr
      obtain ⟨q', e', hq', he', -⟩ := (getNonCoinstakeScriptPath_eq_some_iff r').mp hr'
      obtain ⟨e, he⟩ := (h p q hp hq).ends q' e' hq' he'
      obtain ⟨a, st, hforks⟩ := exists_forks he (p + 1) q
      exact isSome_iff_exists.mpr ⟨_, (split_eq_some_iff _).mpr ⟨p, q, a, st, e, hp, hq,
        hforks, rfl⟩⟩

lemma length_slice {a b : Nat} (hb : b ≤ s.length) : (slice s a b).length = b - a := by
  rw [slice, List.length_drop, List.length_take, Nat.min_eq_left hb]

/-- At aligned positions the branches are the same exactly when no second `OP_ELSE` comes before the
`OP_ENDIF`. -/
lemma sameBranches_iff {p q : Nat} (hq : Seek s OP_ELSE 0 q) :
    SameBranches s p q ↔ ∀ a st e, Forks s q (p + 1) q a st e → st = q := by
  constructor
  · intro h a st e hforks
    obtain ⟨-, q', e', hq', he', hB⟩ := h.branches a st e hforks
    obtain rfl := hq.unique hq'
    obtain rfl := hforks.close_seek.unique he'
    have hlen := congrArg List.length hB
    have hbound := he'.bound
    have hlater := hforks.later le_rfl
    rw [length_slice (by omega), length_slice (by omega)] at hlen
    omega
  · intro h
    refine ⟨fun a st e hforks => ?_, fun q' e' hq' he' => ?_⟩
    · obtain rfl := h a st e hforks
      obtain ⟨rfl, -⟩ | ⟨hlt, -⟩ := hforks.later le_rfl
      · exact ⟨rfl, st, e, hq, hforks.close_seek, rfl⟩
      · exact absurd hlt (lt_irrefl _)
    · exact ⟨e', hq.unique hq' ▸ he'⟩

section

def OP_1 : UInt8 := 0x51
def OP_2 : UInt8 := 0x52
def OP_3 : UInt8 := 0x53

def repeatedElse : Bytes :=
  [OP_ISCOINSTAKE, OP_IF, OP_1, OP_ELSE, OP_2, OP_ELSE, OP_3, OP_ENDIF]

def lateMarker : Bytes := [OP_ELSE, OP_2, OP_ENDIF, OP_ISCOINSTAKE, OP_IF, OP_1, OP_ELSE]

end

end ScriptPaths
