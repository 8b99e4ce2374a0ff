import BitcoinC.KeyedStore

/-!
# Numbered logs

A log numbers its records consecutively from 1. It is kept as two stores, one from
numbers to records and one from the records' keys back to numbers.
-/

namespace LogIndex

open KeyedStore

variable {R K : Type}

def numbered : Int → List R → List (Int × R)
  | _, [] => []
  | n, r :: rs => (n + 1, r) :: numbered (n + 1) rs

@[simp] lemma numbered_nil (n : Int) : numbered n ([] : List R) = [] := rfl

lemma numbered_append (n : Int) (rs rs' : List R) :
    numbered n (rs ++ rs') = numbered n rs ++ numbered (n + rs.length) rs' := by
  induction rs generalizing n with
  | nil => simp
  | cons r rs ih =>
    have hn : n + 1 + (rs.length : Int) = n + ((rs.length + 1 : Nat) : Int) := by omega
    rw [List.cons_append, numbered, ih, numbered, List.length_cons, hn, List.cons_append]

lemma map_snd_numbered (n : Int) (rs : List R) : (numbered n rs).map Prod.snd = rs := by
  induction rs generalizing n with
  | nil => rfl
  | cons r rs ih => rw [numbered, List.map_cons, ih]

lemma numbered_map {R' : Type} (f : R → R') (n : Int) (rs : List R) :
    (numbered n rs).map (fun x => (x.1, f x.2)) = numbered n (rs.map f) := by
  induction rs generalizing n with
  | nil => rfl
  | cons r rs ih => rw [numbered, List.map_cons, List.map_cons, ih, numbered]

lemma mem_numbered_bounds (n m : Int) (rs : List R) (r : R) (h : (m, r) ∈ numbered n rs) :
    n < m ∧ m ≤ n + rs.length := by
  induction rs generalizing n with
  | nil => cases h
  | cons r' rs ih =>
    rw [List.length_cons]
    rcases List.mem_cons.mp h with h | h
    · obtain ⟨rfl, -⟩ := Prod.mk.inj h
      omega
    · have := ih (n + 1) h
      omega

lemma numbered_nodup (n : Int) (rs : List R) : ((numbered n rs).map Prod.fst).Nodup := by
  induction rs generalizing n with
  | nil => exact List.nodup_nil
  | cons r rs ih =>
    rw [numbered, List.map_cons, List.nodup_cons]
    refine ⟨?_, ih (n + 1)⟩
    intro hmem
    obtain ⟨⟨m, r'⟩, hm, rfl⟩ := List.mem_map.mp hmem
    have := (mem_numbered_bounds (n + 1) _ rs r' hm).1
    dsimp only at this
    omega

lemma putAll_numbered_last (store : Int → Option R) (n : Int) (rs : List R) (r : R)
    (h : rs.getLast? = some r) : putAll store (numbered n rs) (n + rs.length) = some r := by
  obtain ⟨init, rfl⟩ := List.getLast?_eq_some_iff.mp h
  have hn : n + ((init ++ [r]).length : Int) = n + init.length + 1 := by
    rw [List.length_append, List.length_singleton]
    omega
  rw [numbered_append, putAll_append, numbered, numbered_nil, putAll_cons, putAll_nil, hn, put_self]

lemma holds_numbered_append {log rs : List R} {store : Int → Option R}
    (h : Holds (numbered 0 log) store) :
    Holds (numbered 0 (log ++ rs)) (putAll store (numbered log.length rs)) := by
  have hnum := numbered_append 0 log rs
  rw [Int.zero_add] at hnum
  rw [hnum]
  refine h.putAll ?_
  rw [← hnum]
  exact numbered_nodup 0 _

lemma holds_numbered_truncate {log rs : List R} {store : Int → Option R} {nums : List Int}
    (h : Holds (numbered 0 (log ++ rs)) store)
    (hnums : ∀ n, n ∈ nums ↔ n ∈ (numbered log.length rs).map Prod.fst) :
    Holds (numbered 0 log) (eraseAll store nums) := by
  have hnum := numbered_append 0 log rs
  rw [Int.zero_add] at hnum
  have hnodup := numbered_nodup 0 (log ++ rs)
  rw [hnum] at h hnodup
  exact h.eraseAll hnodup hnums

variable (key : R → K)
variable (n : Int)

def links (n : Int) (rs : List R) : List (K × Int) := (numbered n rs).map fun x => (key x.2, x.1)

@[simp] lemma links_nil : links key n [] = [] := rfl

lemma links_cons (r : R) (rs : List R) :
    links key n (r :: rs) = (key r, n + 1) :: links key (n + 1) rs := rfl

lemma links_append (rs rs' : List R) :
    links key n (rs ++ rs') = links key n rs ++ links key (n + rs.length) rs' := by
  rw [links, numbered_append, List.map_append]
  rfl

lemma map_fst_links (rs : List R) : (links key n rs).map Prod.fst = rs.map key := by
  rw [links, List.map_map, ← map_snd_numbered n rs, List.map_map, map_snd_numbered]
  rfl

lemma map_snd_links (rs : List R) :
    (links key n rs).map Prod.snd = (numbered n rs).map Prod.fst := by
  rw [links, List.map_map]
  rfl

def downwards : Int → List K → List (K × Int)
  | _, [] => []
  | n, k :: ks => (k, n) :: downwards (n - 1) ks

lemma downwards_append (ks ks' : List K) :
    downwards n (ks ++ ks') = downwards n ks ++ downwards (n - ks.length) ks' := by
  induction ks generalizing n with
  | nil => simp [downwards]
  | cons k ks ih =>
    have hn : n - 1 - (ks.length : Int) = n - ((ks.length + 1 : Nat) : Int) := by omega
    rw [List.cons_append, downwards, ih, downwards, List.length_cons, hn, List.cons_append]

lemma downwards_reverse (rs : List R) :
    downwards (n + rs.length) (rs.map key).reverse = (links key n rs).reverse := by
  induction rs generalizing n with
  | nil => rfl
  | cons r rs ih =>
    have hn : n + ((rs.length + 1 : Nat) : Int) = n + 1 + rs.length := by omega
    have hfirst : n + 1 + (rs.length : Int) - rs.length = n + 1 := by omega
    rw [List.map_cons, List.reverse_cons, List.length_cons, hn, downwards_append, ih,
      List.length_reverse, List.length_map, hfirst, links_cons, List.reverse_cons]
    rfl

/-- The store `link` leads from the keys of a log, all different, back to the numbers. -/
structure Linked (log : List R) (link : K → Option Int) : Prop where
  link : Holds (links key 0 log) link
  nodup : (log.map key).Nodup

variable {key} {log rs : List R} {link : K → Option Int}

lemma Linked.nil : Linked key [] fun _ => none := ⟨holds_nil, List.nodup_nil⟩

lemma Linked.nodup_append (h : Linked key log link) (hrs : (rs.map key).Nodup)
    (hfresh : ∀ r ∈ rs, link (key r) = none) : ((log ++ rs).map key).Nodup := by
  rw [List.map_append]
  refine List.nodup_append'.mpr ⟨h.nodup, hrs, ?_⟩
  intro k hlog hbatch
  obtain ⟨r, hr, rfl⟩ := List.mem_map.mp hbatch
  rw [← map_fst_links key 0] at hlog
  obtain ⟨⟨k, n⟩, hmem, rfl⟩ := List.mem_map.mp hlog
  have hsome := (h.link (key r) n).mpr hmem
  rw [hfresh r hr] at hsome
  cases hsome

variable [DecidableEq K]

/-- The links of a batch may be written in any order. -/
lemma Linked.append (h : Linked key log link) (hnodup : ((log ++ rs).map key).Nodup)
    {batch : List (K × Int)} (hbatch : batch.Perm (links key log.length rs)) :
    Linked key (log ++ rs) (putAll link batch) := by
  have hlink := links_append key 0 log rs
  rw [Int.zero_add] at hlink
  refine ⟨?_, hnodup⟩
  have hperm : (links key 0 log ++ batch).Perm (links key 0 (log ++ rs)) := by
    rw [hlink]
    exact hbatch.append_left _
  have hall : Holds (links key 0 log ++ batch) (putAll link batch) := by
    refine h.link.putAll ((hperm.map Prod.fst).nodup_iff.mpr ?_)
    rw [map_fst_links]
    exact hnodup
  exact fun k n => (hall k n).trans hperm.mem_iff

lemma Linked.truncate (h : Linked key (log ++ rs) link) {keys : List K}
    (hkeys : ∀ k, k ∈ keys ↔ k ∈ rs.map key) : Linked key log (eraseAll link keys) := by
  have hlink := links_append key 0 log rs
  rw [Int.zero_add] at hlink
  obtain ⟨hlinks, hnodup⟩ := h
  have hfst := hnodup
  rw [← map_fst_links key 0, hlink] at hfst
  rw [hlink] at hlinks
  rw [List.map_append] at hnodup
  refine ⟨hlinks.eraseAll hfst ?_, hnodup.of_append_left⟩
  rw [map_fst_links]
  exact hkeys

end LogIndex
