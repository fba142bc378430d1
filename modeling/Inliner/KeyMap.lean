/-!
# Finite maps in key order

A finite map is kept as the list of its entries, strictly ascending in the keys. Its listing is
therefore determined by what it maps to what, and does not depend on the order of insertions.
-/

namespace Inliner

open Std

namespace Lexicographic

variable {α β : Type}

/-- Comparing by a projection is transitive when comparing the projections is. -/
theorem transCmp_on [Ord β] [TransOrd β] (p : α → β) :
    TransCmp fun a b => compare (p a) (p b) where
  eq_swap := OrientedCmp.eq_swap
  isLE_trans := TransCmp.isLE_trans

/-- Breaking the ties of one transitive comparison by another gives a transitive comparison. -/
theorem transCmp_then {f g : α → α → Ordering} [TransCmp f] [TransCmp g] :
    TransCmp fun a b => (f a b).then (g a b) where
  eq_swap {a b} := by
    have hf : f a b = (f b a).swap := OrientedCmp.eq_swap
    have hg : g a b = (g b a).swap := OrientedCmp.eq_swap
    rw [hf, hg]
    cases f b a <;> cases g b a <;> rfl
  isLE_trans {a b c} hab hbc := by
    have split {o p : Ordering} (h : (o.then p).isLE = true) : o = .lt ∨ o = .eq ∧ p.isLE = true := by
      cases o <;> simp_all [Ordering.then]
    rcases split hab with hab | ⟨hab, hab'⟩ <;> rcases split hbc with hbc | ⟨hbc, hbc'⟩
    · simp [TransCmp.lt_trans hab hbc]
    · simp [TransCmp.lt_of_lt_of_eq hab hbc]
    · simp [TransCmp.lt_of_eq_of_lt hab hbc]
    · simp [TransCmp.eq_trans hab hbc, TransCmp.isLE_trans hab' hbc']

end Lexicographic

/-- The entries of a map, strictly ascending in the keys. -/
structure KeyMap (κ ν : Type) [Ord κ] where
  entries : List (κ × ν)
  ascending : entries.Pairwise fun p q => compare p.1 q.1 = .lt

namespace KeyMap

variable {κ ν : Type} [Ord κ]

/-- The map without entries. -/
def empty : KeyMap κ ν :=
  ⟨[], .nil⟩

instance : EmptyCollection (KeyMap κ ν) :=
  ⟨empty⟩

/-- The value at `k` in a list of entries. -/
def findIn (k : κ) : List (κ × ν) → Option ν
  | [] => none
  | (k', v) :: rest => if compare k k' = .eq then some v else findIn k rest

/-- The value at `k`. -/
def get? (m : KeyMap κ ν) (k : κ) : Option ν :=
  findIn k m.entries

/-- There is an entry at `k`. -/
def contains (m : KeyMap κ ν) (k : κ) : Bool :=
  (m.get? k).isSome

/-- The keys, ascending. -/
def keys (m : KeyMap κ ν) : List κ :=
  m.entries.map Prod.fst

/-- The number of entries. -/
def size (m : KeyMap κ ν) : Nat :=
  m.entries.length

/-- There is no entry. -/
def isEmpty (m : KeyMap κ ν) : Bool :=
  m.entries.isEmpty

/-- The entries without the one at `k`. -/
def erase (m : KeyMap κ ν) (k : κ) : KeyMap κ ν :=
  ⟨m.entries.filter fun p => compare k p.1 != .eq, m.ascending.filter _⟩

/-- Places the entry for `k` where it belongs in an ascending list, replacing the one that is
there. -/
def insertInto (k : κ) (v : ν) : List (κ × ν) → List (κ × ν)
  | [] => [(k, v)]
  | (k', v') :: rest =>
    match compare k k' with
    | .lt => (k, v) :: (k', v') :: rest
    | .eq => (k, v) :: rest
    | .gt => (k', v') :: insertInto k v rest

/-- Every key of `insertInto k v l` is `k` or a key of `l`. -/
theorem key_mem_insertInto {k : κ} {v : ν} {l : List (κ × ν)} {p : κ × ν}
    (h : p ∈ insertInto k v l) : p = (k, v) ∨ p ∈ l := by
  induction l with
  | nil => exact Or.inl (by simpa [insertInto] using h)
  | cons q rest ih =>
    unfold insertInto at h
    split at h
    · simpa using h
    · rcases List.mem_cons.1 h with h | h
      · exact Or.inl h
      · exact Or.inr (List.mem_cons_of_mem _ h)
    · rcases List.mem_cons.1 h with h | h
      · exact Or.inr (h ▸ List.mem_cons_self)
      · exact (ih h).imp_right (List.mem_cons_of_mem _)

theorem ascending_insertInto [TransOrd κ] (k : κ) (v : ν) {l : List (κ × ν)}
    (h : l.Pairwise fun p q => compare p.1 q.1 = .lt) :
    (insertInto k v l).Pairwise fun p q => compare p.1 q.1 = .lt := by
  induction l with
  | nil => exact .cons (by simp) .nil
  | cons q rest ih =>
    obtain ⟨hq, hrest⟩ := List.pairwise_cons.1 h
    unfold insertInto
    split
    · rename_i hk
      refine .cons (fun p hp => ?_) h
      rcases List.mem_cons.1 hp with rfl | hp
      · exact hk
      · exact TransCmp.lt_trans hk (hq p hp)
    · rename_i hk
      exact .cons (fun p hp => TransCmp.lt_of_eq_of_lt hk (hq p hp)) hrest
    · rename_i hk
      refine .cons (fun p hp => ?_) (ih hrest)
      rcases key_mem_insertInto hp with rfl | hp
      · exact OrientedCmp.gt_iff_lt.1 hk
      · exact hq p hp

variable [TransOrd κ]

/-- The map with `k` mapped to `v`. -/
def insert (m : KeyMap κ ν) (k : κ) (v : ν) : KeyMap κ ν :=
  ⟨insertInto k v m.entries, ascending_insertInto k v m.ascending⟩

/-- The map with the listed entries; of two entries for one key the later counts. -/
def ofList (l : List (κ × ν)) : KeyMap κ ν :=
  l.foldl (fun m p => m.insert p.1 p.2) ∅

end KeyMap

end Inliner
