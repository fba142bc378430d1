import Inliner.KeyMap
import Mathlib.Data.List.Nodup
import Mathlib.Data.List.Sort

/-!
# Entries of maps

What a map holds after an insertion or a removal, and which keys it has. No key has two entries, so
looking up a key and listing the entries say the same, and the entries are in order, so a map is
determined by what it holds (`eq_of_get?`).
-/

namespace Inliner

namespace KeyMap

open Std

variable {κ ν : Type} [Ord κ] [LawfulEqOrd κ]

/-- An inserted entry is found, and all others as before. -/
lemma findIn_insertInto (k k' : κ) (v : ν) (entries : List (κ × ν)) [Decidable (k' = k)] :
    findIn k' (insertInto k v entries) = if k' = k then some v else findIn k' entries := by
  have hself : ∀ a b : κ, compare a b = .eq ↔ a = b := fun a b => LawfulEqCmp.compare_eq_iff_eq
  induction entries with
  | nil => simp [insertInto, findIn, hself]
  | cons q rest ih =>
    unfold insertInto
    split
    · simp [findIn, hself]
    · rename_i hk
      obtain rfl := (hself _ _).1 hk
      by_cases hkk : k' = q.1 <;> simp [findIn, hself, hkk]
    · rename_i hk
      have hne : q.1 ≠ k := by
        rintro rfl
        rw [(hself q.1 q.1).2 rfl] at hk
        cases hk
      by_cases hkk : k' = k
      · subst hkk
        simp [findIn, hself, hne.symm, ih]
      · simp [findIn, hself, hkk, ih]

/-- What a map holds after one insertion. -/
lemma get?_insert [TransOrd κ] (m : KeyMap κ ν) (k k' : κ) (v : ν) [Decidable (k' = k)] :
    (m.insert k v).get? k' = if k' = k then some v else m.get? k' :=
  findIn_insertInto k k' v m.entries

/-- What a map holds after an entry was removed. -/
lemma get?_erase (m : KeyMap κ ν) (k k' : κ) [Decidable (k' = k)] :
    (m.erase k).get? k' = if k' = k then none else m.get? k' := by
  have hself : ∀ a b : κ, compare a b = .eq ↔ a = b := fun a b => LawfulEqCmp.compare_eq_iff_eq
  change findIn k' (m.entries.filter fun p => compare k p.1 != .eq) = _
  rw [get?]
  induction m.entries with
  | nil => simp [findIn]
  | cons q rest ih =>
    rw [List.filter_cons]
    by_cases hq : k = q.1
    · subst hq
      by_cases hk : k' = q.1
      · simpa [hself, hk] using ih
      · simpa [hself, hk, findIn] using ih
    · by_cases hk : k' = q.1
      · have hne : k' ≠ k := fun h => hq (h.symm.trans hk)
        simp [hself, hq, hk, findIn, Ne.symm hq]
      · simpa [hself, hq, hk, findIn] using ih

/-- The keys are those with an entry. -/
lemma mem_keys_iff (m : KeyMap κ ν) (k : κ) : k ∈ m.keys ↔ ∃ v, m.get? k = some v := by
  have hself : ∀ a b : κ, compare a b = .eq ↔ a = b := fun a b => LawfulEqCmp.compare_eq_iff_eq
  unfold keys get?
  induction m.entries with
  | nil => simp [findIn]
  | cons q rest ih =>
    by_cases hk : k = q.1
    · simp [findIn, hk]
    · simpa [findIn, hself, hk] using ih

/-- No key has two entries. -/
lemma nodup_keys (m : KeyMap κ ν) : m.keys.Nodup := by
  rw [keys, List.Nodup, List.pairwise_map]
  refine m.ascending.imp fun {p q} hlt heq => ?_
  have heq' : compare p.1 q.1 = .eq := LawfulEqCmp.compare_eq_iff_eq.2 heq
  rw [heq'] at hlt
  cases hlt

/-- What is not found is no key. -/
lemma findIn_eq_none_iff (k : κ) (entries : List (κ × ν)) :
    findIn k entries = none ↔ k ∉ entries.map Prod.fst := by
  have hself : ∀ a b : κ, compare a b = .eq ↔ a = b := fun a b => LawfulEqCmp.compare_eq_iff_eq
  induction entries with
  | nil => simp [findIn]
  | cons q rest ih => by_cases hk : k = q.1 <;> simp [findIn, hself, hk, ih]

/-- What is found is an entry. -/
lemma findIn_eq_some_iff (k : κ) (v : ν) {entries : List (κ × ν)}
    (hnodup : (entries.map Prod.fst).Nodup) :
    findIn k entries = some v ↔ (k, v) ∈ entries := by
  have hself : ∀ a b : κ, compare a b = .eq ↔ a = b := fun a b => LawfulEqCmp.compare_eq_iff_eq
  induction entries with
  | nil => simp [findIn]
  | cons q rest ih =>
    obtain ⟨key, value⟩ := q
    obtain ⟨hnot, hnodup⟩ := List.nodup_cons.1 hnodup
    by_cases hk : k = key
    · subst hk
      have hrest : (k, v) ∉ rest := fun hmem => hnot (List.mem_map.2 ⟨(k, v), hmem, rfl⟩)
      simp [findIn, hrest, eq_comm]
    · simp [findIn, hself, hk, ih hnodup]

/-- Maps that hold the same are equal. -/
lemma eq_of_get? [TransOrd κ] {m m' : KeyMap κ ν} (h : ∀ k, m.get? k = m'.get? k) : m = m' := by
  have hirrefl : Std.Irrefl fun p q : κ × ν => compare p.1 q.1 = .lt := by
    refine ⟨fun p hp => ?_⟩
    rw [ReflOrd.compare_self] at hp
    cases hp
  have hantisymm : Std.Antisymm fun p q : κ × ν => compare p.1 q.1 = .lt := by
    refine ⟨fun p q hpq hqp => ?_⟩
    rw [OrientedCmp.gt_of_lt hpq] at hqp
    cases hqp
  have hentries : m.entries = m'.entries := by
    refine m.ascending.eq_of_mem_iff m'.ascending fun p => ?_
    obtain ⟨k, v⟩ := p
    rw [← findIn_eq_some_iff k v m.nodup_keys, ← findIn_eq_some_iff k v m'.nodup_keys]
    exact Eq.congr_left (h k)
  cases m
  cases m'
  cases hentries
  rfl

/-- What a map holds that was listed with values computed from the keys. -/
lemma get?_ofList_map [TransOrd κ] [DecidableEq κ] (keys : List κ) (value : κ → ν) (k : κ) :
    (ofList (keys.map fun k => (k, value k))).get? k =
      if k ∈ keys then some (value k) else none := by
  have hfold : ∀ m : KeyMap κ ν,
      ((keys.map fun k => (k, value k)).foldl (fun m p => m.insert p.1 p.2) m).get? k =
        if k ∈ keys then some (value k) else m.get? k := by
    induction keys with
    | nil => simp
    | cons key keys ih =>
      intro m
      rw [List.map_cons, List.foldl_cons, ih, get?_insert]
      by_cases hmem : k ∈ keys <;> by_cases hk : k = key <;> simp [hmem, hk]
  exact hfold ∅

end KeyMap

end Inliner
