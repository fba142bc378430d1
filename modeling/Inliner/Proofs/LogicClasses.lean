import Inliner.Proofs.Commutation
import Inliner.Proofs.LinkChains

/-!
# Logic variables form classes with at most one value

Seen from outside, an arena is a partition of the variables it has issued, with at most one value for
each class. Looking for representatives rewrites links and changes nothing of this (`Alike`), giving a
value to a class changes the value of this class only (`Assigned`), and a unification makes one class
of two (`Merged`).

The main result, `partitioned_of_performAll`, is about every sequence of calls on issued variables in
which no unification is refused. Two variables are then in one class exactly when the unifications
made so far connect them, and every further call answers and acts as the partition says.
-/

namespace Inliner

namespace Arena

variable {α : Type} {a a' b c : Arena α} {u v w r : Nat}

/-! ## Representatives -/

/-- The root of a variable is where its links lead. -/
lemma root_eq_of_leads (h : Leads a.cells v r) : a.root v = r :=
  h.chase_eq

/-- A variable that was not issued stands for itself. -/
lemma root_of_size_le (h : a.size ≤ v) : a.root v = v := by
  have hnone : a.cells[v]? = none := List.getElem?_eq_none h
  rw [root]
  cases a.size with
  | zero => rfl
  | succ n => rw [chase, hnone]

/-- The links of each variable lead to its root. -/
lemma leads_root (h : Rooted a.cells) (hv : v < a.size) : Leads a.cells v (a.root v) := by
  obtain ⟨r, hr⟩ := h v hv
  rwa [root_eq_of_leads hr]

/-- The root of each variable is a root. -/
lemma isRoot_root (h : Rooted a.cells) (hv : v < a.size) : IsRoot a.cells (a.root v) :=
  (leads_root h hv).isRoot

/-- Where the ends of chains go, the representatives go. -/
lemma root_of_leads {f : Nat → Nat} (h : Rooted a.cells) (hsize : a'.size = a.size)
    (hf : ∀ v r, Leads a.cells v r → Leads a'.cells v (f r)) (hfix : ∀ v, a.size ≤ v → f v = v) :
    Rooted a'.cells ∧ ∀ v, a'.root v = f (a.root v) := by
  constructor
  · intro v hv
    obtain ⟨r, hr⟩ := h v (Nat.lt_of_lt_of_eq hv hsize)
    exact ⟨f r, hf v r hr⟩
  · intro v
    by_cases hv : v < a.size
    · exact root_eq_of_leads (hf v _ (leads_root h hv))
    · rw [root_of_size_le (by omega), root_of_size_le (by omega), hfix v (by omega)]

/-! ## Classes and their values -/

/-- The value of the class of `v`, if it has one. -/
def classValue (a : Arena α) (v : Nat) : Option α :=
  a.valueAt (a.root v)

/-- The variable `u` is in the class of `v` or in that of `w`. -/
def Among (a : Arena α) (v w u : Nat) : Prop :=
  a.root u = a.root v ∨ a.root u = a.root w

/-- No representative and no value has changed. -/
structure Alike (a a' : Arena α) : Prop where
  size_eq : a'.size = a.size
  root_eq : ∀ u, a'.root u = a.root u
  classValue_eq : ∀ u, a'.classValue u = a.classValue u

/-- A variable was issued, in a class of its own, and its value is `x`. -/
structure Issued (a a' : Arena α) (x : Option α) : Prop where
  size_eq : a'.size = a.size + 1
  root_eq : ∀ u, a'.root u = a.root u
  root_new : a'.root a.size = a.size
  classValue_new : a'.classValue a.size = x
  classValue_eq : ∀ u < a.size, a'.classValue u = a.classValue u

/-- The class of `v` was given the value `x`, and nothing else has changed. -/
structure Assigned (a a' : Arena α) (v : Nat) (x : α) : Prop where
  size_eq : a'.size = a.size
  root_eq : ∀ u, a'.root u = a.root u
  classValue_same : ∀ u, a.root u = a.root v → a'.classValue u = some x
  classValue_other : ∀ u, a.root u ≠ a.root v → a'.classValue u = a.classValue u

/-- The classes of `v` and `w` became one, with the value `x` if there is one, and nothing else has
changed. -/
structure Merged (a a' : Arena α) (v w : Nat) (x : Option α) : Prop where
  size_eq : a'.size = a.size
  root_eq_iff : ∀ u u', a'.root u = a'.root u' ↔
    a.root u = a.root u' ∨ (a.Among v w u ∧ a.Among v w u')
  classValue_among : ∀ u, a.Among v w u → a'.classValue u = x
  root_other : ∀ u, ¬ a.Among v w u → a'.root u = a.root u
  classValue_other : ∀ u, ¬ a.Among v w u → a'.classValue u = a.classValue u

/-- Likeness is transitive. -/
lemma Alike.trans (h : Alike a b) (h' : Alike b c) : Alike a c where
  size_eq := h'.size_eq.trans h.size_eq
  root_eq u := (h'.root_eq u).trans (h.root_eq u)
  classValue_eq u := (h'.classValue_eq u).trans (h.classValue_eq u)

/-- The value may be assigned in an arena that is alike. -/
lemma Assigned.of_alike {x : α} (h : Alike a b) (h' : Assigned b c v x) : Assigned a c v x where
  size_eq := h'.size_eq.trans h.size_eq
  root_eq u := (h'.root_eq u).trans (h.root_eq u)
  classValue_same u hu := h'.classValue_same u (by rwa [h.root_eq, h.root_eq])
  classValue_other u hu :=
    (h'.classValue_other u (by rwa [h.root_eq, h.root_eq])).trans (h.classValue_eq u)

/-- What happened to the two classes before they became one does not matter, as long as they were
there. -/
lemma Merged.of_root_eq {x : Option α} (h : Merged b c v w x) (hsize : b.size = a.size)
    (hroot : ∀ u, b.root u = a.root u)
    (hother : ∀ u, ¬ a.Among v w u → b.classValue u = a.classValue u) : Merged a c v w x := by
  have hamong : ∀ u, b.Among v w u ↔ a.Among v w u := fun u => by
    simp only [Among, hroot]
  refine ⟨h.size_eq.trans hsize, fun u u' => ?_, fun u hu => ?_, fun u hu => ?_, fun u hu => ?_⟩
  · rw [h.root_eq_iff, hamong, hamong, hroot, hroot]
  · exact h.classValue_among u ((hamong u).2 hu)
  · exact (h.root_other u fun hu' => hu ((hamong u).1 hu')).trans (hroot u)
  · exact (h.classValue_other u fun hu' => hu ((hamong u).1 hu')).trans (hother u hu)

/-- It does not matter in which order two classes are named. -/
lemma among_comm : a.Among v w u ↔ a.Among w v u :=
  Or.comm

/-- Nor does it when they are merged. -/
lemma Merged.symm {x : Option α} (h : Merged a a' v w x) : Merged a a' w v x where
  size_eq := h.size_eq
  root_eq_iff u u' := by
    rw [h.root_eq_iff, among_comm, among_comm (u := u')]
  classValue_among u hu := h.classValue_among u (among_comm.1 hu)
  root_other u hu := h.root_other u fun hu' => hu (among_comm.1 hu')
  classValue_other u hu := h.classValue_other u fun hu' => hu (among_comm.1 hu')

/-! ## Changes of cells and changes of classes -/

/-- The value at a representative is read off its own state. -/
lemma valueAt_congr (h : a'.cells[r]? = a.cells[r]?) : a'.valueAt r = a.valueAt r := by
  rw [valueAt, valueAt, h]

/-- The class of a variable that was not issued has no value. -/
lemma classValue_of_size_le (h : a.size ≤ v) : a.classValue v = none := by
  rw [classValue, root_of_size_le h, valueAt, List.getElem?_eq_none h]

/-- If all roots are kept, then the classes are. -/
lemma Keeps.alike (hk : Keeps a.cells a'.cells) (h : Rooted a.cells) :
    Rooted a'.cells ∧ Alike a a' := by
  have hsize : a'.size = a.size := hk.length_eq
  obtain ⟨hrooted, hroot⟩ :=
    root_of_leads (f := id) h hsize (fun _ _ => hk.leads) fun _ _ => rfl
  refine ⟨hrooted, hsize, hroot, fun u => ?_⟩
  by_cases hu : u < a.size
  · rw [classValue, classValue, hroot]
    exact valueAt_congr (hk.getElem?_eq (isRoot_root h hu))
  · rw [classValue_of_size_le (by omega), classValue_of_size_le (by omega)]

/-- Storing a value at a representative gives it to the class. -/
lemma assigned_setCell (h : Rooted a.cells) (hv : v < a.size) (x : α) :
    Rooted (a.setCell (a.root v) (.bound x)).cells ∧
      Assigned a (a.setCell (a.root v) (.bound x)) v x := by
  have hr := isRoot_root h hv
  have hsize : (a.setCell (a.root v) (.bound x)).size = a.size := List.length_set
  obtain ⟨hrooted, hroot⟩ := root_of_leads (f := id) h hsize
    (fun _ _ => Leads.set_root hr (by simp)) fun _ _ => rfl
  refine ⟨hrooted, hsize, hroot, fun u hu => ?_, fun u hu => ?_⟩
  · rw [classValue, hroot, id, hu, valueAt, setCell, List.getElem?_set_self hr.lt_length]
  · rw [classValue, hroot]
    exact valueAt_congr (List.getElem?_set_ne (Ne.symm hu))

/-- Linking the representative of `w` to that of `v` merges the classes, and the value of `v` stays. -/
lemma merged_setCell (h : Rooted a.cells) (hv : v < a.size) (hw : w < a.size)
    (hne : a.root v ≠ a.root w) :
    Rooted (a.setCell (a.root w) (.link (a.root v))).cells ∧
      Merged a (a.setCell (a.root w) (.link (a.root v))) v w (a.classValue v) := by
  have hrv := isRoot_root h hv
  have hrw := isRoot_root h hw
  have hsize : (a.setCell (a.root w) (.link (a.root v))).size = a.size := List.length_set
  obtain ⟨hrooted, hroot⟩ :=
    root_of_leads (f := fun t => if t = a.root w then a.root v else t) h hsize
      (fun _ _ => Leads.set_link hrw hrv (Ne.symm hne)) fun u hu => by
        have : a.root w < a.size := hrw.lt_length
        exact if_neg (by omega)
  have hamong : ∀ u, a.Among v w u →
      (a.setCell (a.root w) (.link (a.root v))).root u = a.root v := by
    rintro u (hu | hu)
    · rw [hroot, hu, if_neg hne]
    · rw [hroot, hu, if_pos rfl]
  have hother : ∀ u, ¬ a.Among v w u →
      (a.setCell (a.root w) (.link (a.root v))).root u = a.root u := by
    intro u hu
    rw [hroot, if_neg fun h => hu (.inr h)]
  refine ⟨hrooted, hsize, fun u u' => ?_, fun u hu => ?_, hother, fun u hu => ?_⟩
  · -- The new representative of either class is that of `v`, and no other variable has it.
    by_cases hu : a.Among v w u <;> by_cases hu' : a.Among v w u'
    · simp [hamong u hu, hamong u' hu', hu, hu']
    · rw [hamong u hu, hother u' hu']
      have hne' : a.root v ≠ a.root u' := fun h => hu' (.inl h.symm)
      have hne'' : a.root u ≠ a.root u' := by
        intro heq
        exact hu' (hu.imp heq.symm.trans heq.symm.trans)
      simp [hne', hne'', hu']
    · rw [hother u hu, hamong u' hu']
      have hne' : a.root u ≠ a.root v := fun h => hu (.inl h)
      have hne'' : a.root u ≠ a.root u' := by
        intro heq
        exact hu (hu'.imp heq.trans heq.trans)
      simp [hne', hne'', hu]
    · simp [hother u hu, hother u' hu', hu]
  · rw [classValue, hamong u hu]
    exact valueAt_congr (List.getElem?_set_ne (Ne.symm hne))
  · rw [classValue, hother u hu]
    exact valueAt_congr (List.getElem?_set_ne fun h => hu (.inr h.symm))

/-- A variable that is issued starts a class of its own. -/
lemma issued_append (h : Rooted a.cells) (x : Option α) :
    Rooted (a.cells ++ [x.elim .unbound .bound]) ∧
      Issued a ⟨a.cells ++ [x.elim .unbound .bound]⟩ x := by
  set a' : Arena α := ⟨a.cells ++ [x.elim .unbound .bound]⟩ with ha'
  have hsize : a'.size = a.size + 1 := by simp [ha', size]
  have hcell : a'.cells[a.size]? = some (x.elim .unbound .bound) := List.getElem?_concat_length
  have hnew : Leads a'.cells a.size a.size := .root ⟨_, hcell, by cases x <;> simp⟩
  have hold : ∀ u < a.size, Leads a'.cells u (a.root u) := fun u hu => (leads_root h hu).append _
  have hself : a.root a.size = a.size := root_of_size_le (Nat.le_refl _)
  have hroot : ∀ u, a'.root u = a.root u := by
    intro u
    rcases Nat.lt_trichotomy u a.size with hu | rfl | hu
    · exact root_eq_of_leads (hold u hu)
    · rw [hself, root_eq_of_leads hnew]
    · rw [root_of_size_le (by omega), root_of_size_le (by omega)]
  constructor
  · intro u hu
    rcases Nat.lt_or_eq_of_le (Nat.le_of_lt_succ (Nat.lt_of_lt_of_eq hu hsize)) with hlt | rfl
    · exact ⟨_, hold u hlt⟩
    · exact ⟨_, hnew⟩
  · refine ⟨hsize, hroot, (hroot _).trans hself, ?_, fun u hu => ?_⟩
    · rw [classValue, hroot, hself, valueAt, hcell]
      cases x <;> rfl
    · rw [classValue, hroot]
      exact valueAt_congr (List.getElem?_append_left (isRoot_root h hu).lt_length)

/-! ## What the operations do -/

/-- The arena after the representative of `v` was looked for. -/
def followed (a : Arena α) (v : Nat) : Arena α :=
  ⟨compress (a.root v) a.size v a.cells⟩

/-- Following links finds the root, and shortens the way. -/
lemma follow_eq (hv : v < a.size) : follow v a = .ok (a.root v) (a.followed v) :=
  if_pos hv

/-- The classes stay the same. -/
lemma alike_followed (h : Rooted a.cells) (hv : v < a.size) :
    Rooted (a.followed v).cells ∧ Alike a (a.followed v) :=
  Keeps.alike (keeps_compress (leads_root h hv) a.size) h

/-- After a look-up the value of a class is still found at its representative. -/
lemma Alike.valueAt_root (h : Alike a a') (u : Nat) : a'.valueAt (a.root u) = a.classValue u := by
  rw [← h.classValue_eq, classValue, h.root_eq]

/-- The arena is looked at first. -/
lemma get_bind_eq {β : Type} (k : Arena α → Op α β) : (get >>= k) a = k a a :=
  rfl

/-- Looking for a representative changes no class. -/
lemma exists_follow (h : Rooted a.cells) (hv : v < a.size) :
    ∃ a', follow v a = .ok (a.root v) a' ∧ Rooted a'.cells ∧ Alike a a' :=
  ⟨_, follow_eq hv, alike_followed h hv⟩

/-- The value of a variable is that of its class. -/
lemma exists_value (h : Rooted a.cells) (hv : v < a.size) :
    ∃ a', value v a = .ok (a.classValue v) a' ∧ Rooted a'.cells ∧ Alike a a' := by
  refine ⟨a.followed v, ?_, alike_followed h hv⟩
  rw [value, bind_of_ok (follow_eq hv), ← (alike_followed h hv).2.valueAt_root]
  rfl

/-- A variable is bound if its class has a value. -/
lemma exists_isBound (h : Rooted a.cells) (hv : v < a.size) :
    ∃ a', isBound v a = .ok (a.classValue v).isSome a' ∧ Rooted a'.cells ∧ Alike a a' := by
  obtain ⟨a', hvalue, hrest⟩ := exists_value h hv
  refine ⟨a', ?_, hrest⟩
  rw [isBound, bind_of_ok hvalue]
  rfl

/-- Storing at the representative after it was looked for, as `update` and `bind` do it. -/
lemma assigned_followed (h : Rooted a.cells) (hv : v < a.size) (x : α) :
    Rooted ((a.followed v).setCell (a.root v) (.bound x)).cells ∧
      Assigned a ((a.followed v).setCell (a.root v) (.bound x)) v x := by
  obtain ⟨hrooted, halike⟩ := alike_followed h hv
  rw [← halike.root_eq v]
  obtain ⟨hrooted', hassigned⟩ := assigned_setCell hrooted (halike.size_eq.symm ▸ hv) x
  exact ⟨hrooted', .of_alike halike hassigned⟩

/-- An update changes the value of the class. -/
lemma exists_update_some {x : α} (h : Rooted a.cells) (hv : v < a.size) (f : α → α)
    (hx : a.classValue v = some x) :
    ∃ a', update v f a = .ok (some (f x)) a' ∧ Rooted a'.cells ∧ Assigned a a' v (f x) := by
  refine ⟨_, ?_, assigned_followed h hv (f x)⟩
  rw [← (alike_followed h hv).2.valueAt_root] at hx
  rw [update, bind_of_ok (follow_eq hv), get_bind_eq, hx]
  rfl

/-- Without a value there is nothing to update. -/
lemma exists_update_none (h : Rooted a.cells) (hv : v < a.size) (f : α → α)
    (hx : a.classValue v = none) :
    ∃ a', update v f a = .ok none a' ∧ Rooted a'.cells ∧ Alike a a' := by
  refine ⟨_, ?_, alike_followed h hv⟩
  rw [← (alike_followed h hv).2.valueAt_root] at hx
  rw [update, bind_of_ok (follow_eq hv), get_bind_eq, hx]
  rfl

/-- A class without a value can be given one. -/
lemma exists_bind_none (h : Rooted a.cells) (hv : v < a.size) (x : α)
    (hx : a.classValue v = none) :
    ∃ a', bind v x a = .ok () a' ∧ Rooted a'.cells ∧ Assigned a a' v x := by
  refine ⟨_, ?_, assigned_followed h hv x⟩
  rw [← (alike_followed h hv).2.valueAt_root] at hx
  rw [bind, bind_of_ok (follow_eq hv), get_bind_eq, hx]
  rfl

/-- A class with a value cannot. -/
lemma exists_bind_some {y : α} (h : Rooted a.cells) (hv : v < a.size) (x : α)
    (hy : a.classValue v = some y) :
    ∃ a', bind v x a = .error .alreadyBound a' ∧ Rooted a'.cells ∧ Alike a a' := by
  refine ⟨_, ?_, alike_followed h hv⟩
  rw [← (alike_followed h hv).2.valueAt_root] at hy
  rw [bind, bind_of_ok (follow_eq hv), get_bind_eq, hy]
  rfl

/-! ### Unification -/

/-- The arena after both representatives were looked for. -/
def followedBoth (a : Arena α) (v w : Nat) : Arena α :=
  (a.followed v).followed w

/-- Following the links of two variables keeps the classes. -/
lemma alike_followedBoth (h : Rooted a.cells) (hv : v < a.size) (hw : w < a.size) :
    Rooted (a.followedBoth v w).cells ∧ Alike a (a.followedBoth v w) := by
  obtain ⟨hrooted, halike⟩ := alike_followed h hv
  obtain ⟨hrooted', halike'⟩ := alike_followed hrooted (halike.size_eq.symm ▸ hw)
  exact ⟨hrooted', halike.trans halike'⟩

/-- A unification starts with two look-ups. -/
lemma follow_follow_eq {β : Type} (h : Rooted a.cells) (hv : v < a.size) (hw : w < a.size)
    (k : Nat → Nat → Op α β) :
    (do k (← follow v) (← follow w)) a = k (a.root v) (a.root w) (a.followedBoth v w) := by
  obtain ⟨-, halike⟩ := alike_followed h hv
  rw [bind_of_ok (follow_eq hv), bind_of_ok (follow_eq (halike.size_eq.symm ▸ hw)), halike.root_eq]
  rfl

/-- After the look-ups, and whatever was stored for the two classes, the link merges them. -/
lemma merged_setCell_of_root_eq (hb : Rooted b.cells) (hsize : b.size = a.size)
    (hroot : ∀ u, b.root u = a.root u)
    (hother : ∀ u, ¬ a.Among v w u → b.classValue u = a.classValue u)
    (hv : v < a.size) (hw : w < a.size) (hne : a.root v ≠ a.root w) :
    Rooted (b.setCell (a.root w) (.link (a.root v))).cells ∧
      Merged a (b.setCell (a.root w) (.link (a.root v))) v w (b.classValue v) := by
  rw [← hroot v, ← hroot w] at hne ⊢
  obtain ⟨hrooted, hmerged⟩ := merged_setCell hb (hsize.symm ▸ hv) (hsize.symm ▸ hw) hne
  exact ⟨hrooted, hmerged.of_root_eq hsize hroot hother⟩

/-- Within a class nothing happens but the look-ups. -/
lemma exists_unify_same (h : Rooted a.cells) (hv : v < a.size) (hw : w < a.size)
    (heq : a.root v = a.root w) :
    ∃ a', (∀ reconcile changed, unify v w reconcile changed a = .ok ⟨none, changed, false⟩ a') ∧
      Rooted a'.cells ∧ Alike a a' := by
  refine ⟨_, fun reconcile changed => ?_, alike_followedBoth h hv hw⟩
  rw [unify, follow_follow_eq h hv hw, if_pos heq]
  rfl

/-- Two classes, one of them without a value, become one without asking how to reconcile values. -/
lemma exists_unify_one (h : Rooted a.cells) (hv : v < a.size) (hw : w < a.size)
    (hne : a.root v ≠ a.root w) (hnone : a.classValue v = none ∨ a.classValue w = none) :
    ∃ a', (∀ reconcile changed, unify v w reconcile changed a = .ok ⟨none, true, false⟩ a') ∧
      Rooted a'.cells ∧ Merged a a' v w ((a.classValue v).or (a.classValue w)) := by
  obtain ⟨hrooted, halike⟩ := alike_followedBoth h hv hw
  have hlink : ∀ {v' w' : Nat}, v' < a.size → w' < a.size → a.root v' ≠ a.root w' → _ :=
    merged_setCell_of_root_eq hrooted halike.size_eq halike.root_eq fun u _ => halike.classValue_eq u
  have hx := halike.valueAt_root v
  have hy := halike.valueAt_root w
  cases hw' : a.classValue w with
  | none =>
    obtain ⟨hrooted', hmerged⟩ := hlink hv hw hne
    rw [halike.classValue_eq] at hmerged
    rw [Option.or_none]
    refine ⟨_, fun _ _ => ?_, hrooted', hmerged⟩
    rw [unify, follow_follow_eq h hv hw, if_neg hne, get_bind_eq, get_bind_eq, hx, hy, hw']
    cases a.classValue v <;> rfl
  | some y =>
    have hv' : a.classValue v = none := hnone.resolve_right (by simp [hw'])
    obtain ⟨hrooted', hmerged⟩ := hlink hw hv (Ne.symm hne)
    rw [halike.classValue_eq, hw'] at hmerged
    rw [hv', Option.none_or]
    refine ⟨_, fun _ _ => ?_, hrooted', hmerged.symm⟩
    rw [unify, follow_follow_eq h hv hw, if_neg hne, get_bind_eq, get_bind_eq, hx, hy, hv', hw']
    rfl

/-- Two classes with values are reconciled, and the outcome depends on the one answer to that. -/
lemma unify_of_some {x y : α} (h : Rooted a.cells) (hv : v < a.size) (hw : w < a.size)
    (hne : a.root v ≠ a.root w) (hx : a.classValue v = some x) (hy : a.classValue w = some y)
    (reconcile : α → α → Bool → Reconciled α) (changed : Bool) :
    unify v w reconcile changed a =
      match reconcile x y changed with
      | ⟨z, _, none⟩ => .ok ⟨none, true, true⟩
          (((a.followedBoth v w).setCell (a.root v) (.bound z)).setCell (a.root w)
            (.link (a.root v)))
      | ⟨z, changed', some fault⟩ => .ok ⟨some fault, changed', true⟩
          ((a.followedBoth v w).setCell (a.root v) (.bound z)) := by
  rw [← (alike_followedBoth h hv hw).2.valueAt_root] at hx hy
  rw [unify, follow_follow_eq h hv hw, if_neg hne, get_bind_eq, get_bind_eq, hx, hy]
  dsimp only
  obtain ⟨z, changed', fault⟩ := reconcile x y changed
  cases fault <;> rfl

/-- Two classes with values become one, with the value that reconciling theirs once has given. -/
lemma exists_unify_both {x y : α} (h : Rooted a.cells) (hv : v < a.size) (hw : w < a.size)
    (hne : a.root v ≠ a.root w) (hx : a.classValue v = some x) (hy : a.classValue w = some y) :
    ∃ next : α → Arena α,
      (∀ reconcile changed, (reconcile x y changed).fault = none →
        unify v w reconcile changed a =
          .ok ⟨none, true, true⟩ (next (reconcile x y changed).value)) ∧
      ∀ z, Rooted (next z).cells ∧ Merged a (next z) v w (some z) := by
  obtain ⟨hrooted, halike⟩ := alike_followedBoth h hv hw
  refine ⟨fun z => ((a.followedBoth v w).setCell (a.root v) (.bound z)).setCell (a.root w)
    (.link (a.root v)), fun reconcile changed hok => ?_, fun z => ?_⟩
  · rw [unify_of_some h hv hw hne hx hy]
    generalize reconcile x y changed = outcome at hok
    obtain ⟨z, changed', _⟩ := outcome
    obtain rfl := hok
    rfl
  · obtain ⟨hrooted', hassigned⟩ := assigned_setCell hrooted (halike.size_eq.symm ▸ hv) z
    have hassigned' := Assigned.of_alike halike hassigned
    rw [halike.root_eq] at hrooted' hassigned'
    have := merged_setCell_of_root_eq hrooted' hassigned'.size_eq hassigned'.root_eq
      (fun u hu => hassigned'.classValue_other u fun hroot => hu (.inl hroot)) hv hw hne
    rwa [hassigned'.classValue_same v rfl] at this

/-! ## Sequences of calls -/

/-- The calls that a user of an arena can make. -/
inductive Call (α : Type) where
  | fresh
  | freshBound (x : α)
  | follow (v : Nat)
  | isBound (v : Nat)
  | value (v : Nat)
  | update (v : Nat) (f : α → α)
  | bind (v : Nat) (x : α)
  | unify (v w : Nat) (reconcile : α → α → Bool → Reconciled α) (changed : Bool)

namespace Call

/-- The variables that the call names. -/
def names : Call α → List Nat
  | .fresh | .freshBound _ => []
  | .follow v | .isBound v | .value v | .update v _ | .bind v _ => [v]
  | .unify v w _ _ => [v, w]

/-- The variables that the call connects. -/
def connected? : Call α → Option (Nat × Nat)
  | .unify v w _ _ => some (v, w)
  | _ => none

end Call

/-- The arena that an operation leaves, also if it is at fault. -/
def left {β : Type} : EStateM.Result Fault (Arena α) β → Arena α
  | .ok _ a => a
  | .error _ a => a

/-- The arena after a call on issued variables. There is none if a unification is refused. -/
def next? (a : Arena α) : Call α → Option (Arena α)
  | .fresh => some (left (fresh a))
  | .freshBound x => some (left (freshBound x a))
  | .follow v => some (left (follow v a))
  | .isBound v => some (left (isBound v a))
  | .value v => some (left (value v a))
  | .update v f => some (left (update v f a))
  | .bind v x => some (left (bind v x a))
  | .unify v w reconcile changed =>
    match unify v w reconcile changed a with
    | .ok ⟨none, _, _⟩ a' => some a'
    | _ => none

/-- The arena after a call. There is none if the call names a variable that was not issued. -/
def perform (a : Arena α) (call : Call α) : Option (Arena α) :=
  if ∀ v ∈ call.names, v < a.size then a.next? call else none

/-- The arena after a sequence of calls, if all of them can be made. -/
def performAll (calls : List (Call α)) : Option (Arena α) :=
  calls.foldlM perform empty

/-- The pairs of variables that the calls connect. -/
def unified (calls : List (Call α)) : List (Nat × Nat) :=
  calls.filterMap Call.connected?

/-- Two variables have one representative afterwards if they had one before, or if they are in the two
classes that the call connects. -/
def Joins (call : Call α) (a a' : Arena α) : Prop :=
  ∀ u u', a'.root u = a'.root u' ↔ a.root u = a.root u' ∨
    ∃ v w, call.connected? = some (v, w) ∧ a.Among v w u ∧ a.Among v w u'

/-- A call that connects nothing keeps all representatives. -/
lemma exists_next_of_not_connected {call : Call α} (h : Rooted a.cells)
    (hnames : ∀ v ∈ call.names, v < a.size) (hcall : call.connected? = none) :
    ∃ b, a.next? call = some b ∧ Rooted b.cells ∧ ∀ u, b.root u = a.root u := by
  cases call with
  | fresh => exact ⟨_, rfl, (issued_append h none).imp_right Issued.root_eq⟩
  | freshBound x => exact ⟨_, rfl, (issued_append h (some x)).imp_right Issued.root_eq⟩
  | follow v =>
    obtain ⟨b, heq, hrest⟩ := exists_follow h (hnames v (List.mem_singleton_self v))
    exact ⟨b, by rw [next?, heq, left], hrest.imp_right Alike.root_eq⟩
  | isBound v =>
    obtain ⟨b, heq, hrest⟩ := exists_isBound h (hnames v (List.mem_singleton_self v))
    exact ⟨b, by rw [next?, heq, left], hrest.imp_right Alike.root_eq⟩
  | value v =>
    obtain ⟨b, heq, hrest⟩ := exists_value h (hnames v (List.mem_singleton_self v))
    exact ⟨b, by rw [next?, heq, left], hrest.imp_right Alike.root_eq⟩
  | update v f =>
    have hv := hnames v (List.mem_singleton_self v)
    cases hx : a.classValue v with
    | none =>
      obtain ⟨b, heq, hrest⟩ := exists_update_none h hv f hx
      exact ⟨b, by rw [next?, heq, left], hrest.imp_right Alike.root_eq⟩
    | some x =>
      obtain ⟨b, heq, hrest⟩ := exists_update_some h hv f hx
      exact ⟨b, by rw [next?, heq, left], hrest.imp_right Assigned.root_eq⟩
  | bind v x =>
    have hv := hnames v (List.mem_singleton_self v)
    cases hy : a.classValue v with
    | none =>
      obtain ⟨b, heq, hrest⟩ := exists_bind_none h hv x hy
      exact ⟨b, by rw [next?, heq, left], hrest.imp_right Assigned.root_eq⟩
    | some y =>
      obtain ⟨b, heq, hrest⟩ := exists_bind_some h hv x hy
      exact ⟨b, by rw [next?, heq, left], hrest.imp_right Alike.root_eq⟩
  | unify v w reconcile changed => cases hcall

/-- A unification that is not refused makes one class of those of its two variables. -/
lemma rooted_joins_of_unify {reconcile : α → α → Bool → Reconciled α} {changed : Bool}
    (h : Rooted a.cells) (hv : v < a.size) (hw : w < a.size)
    (hnext : a.next? (.unify v w reconcile changed) = some a') :
    Rooted a'.cells ∧ ∀ u u', a'.root u = a'.root u' ↔
      a.root u = a.root u' ∨ (a.Among v w u ∧ a.Among v w u') := by
  by_cases heq : a.root v = a.root w
  · obtain ⟨b, hunify, hrooted, halike⟩ := exists_unify_same h hv hw heq
    rw [next?, hunify] at hnext
    obtain rfl := Option.some.inj hnext
    refine ⟨hrooted, fun u u' => ?_⟩
    simp only [Among, heq, or_self, halike.root_eq]
    exact ⟨.inl, fun h => h.elim id fun hu => hu.1.trans hu.2.symm⟩
  by_cases hnone : a.classValue v = none ∨ a.classValue w = none
  · obtain ⟨b, hunify, hrooted, hmerged⟩ := exists_unify_one h hv hw heq hnone
    rw [next?, hunify] at hnext
    obtain rfl := Option.some.inj hnext
    exact ⟨hrooted, hmerged.root_eq_iff⟩
  · obtain ⟨hv', hw'⟩ := not_or.1 hnone
    obtain ⟨x, hx⟩ := Option.ne_none_iff_exists'.1 hv'
    obtain ⟨y, hy⟩ := Option.ne_none_iff_exists'.1 hw'
    cases hfault : (reconcile x y changed).fault with
    | none =>
      obtain ⟨next, hunify, hafter⟩ := exists_unify_both h hv hw heq hx hy
      rw [next?, hunify reconcile changed hfault] at hnext
      obtain rfl := Option.some.inj hnext
      exact (hafter _).imp_right Merged.root_eq_iff
    | some fault =>
      rw [next?, unify_of_some h hv hw heq hx hy] at hnext
      generalize reconcile x y changed = outcome at hnext hfault
      obtain ⟨z, changed', _⟩ := outcome
      obtain rfl := hfault
      simp at hnext

/-- One step: a call keeps every variable rooted and connects what it says. -/
lemma rooted_joins_of_perform {call : Call α} (h : Rooted a.cells)
    (hperform : perform a call = some a') : Rooted a'.cells ∧ Joins call a a' := by
  obtain ⟨hnames, hnext⟩ := Option.ite_none_right_eq_some.1 hperform
  cases hcall : call.connected? with
  | none =>
    obtain ⟨b, heq, hrooted, hroot⟩ := exists_next_of_not_connected h hnames hcall
    obtain rfl := Option.some.inj (heq.symm.trans hnext)
    exact ⟨hrooted, fun u u' => by simp [hroot, hcall]⟩
  | some pair =>
    cases call with
    | unify v w reconcile changed =>
      obtain ⟨hrooted, hroot⟩ := rooted_joins_of_unify h (hnames v (by simp [Call.names]))
        (hnames w (by simp [Call.names])) hnext
      exact ⟨hrooted, fun u u' => by simp [hroot, Call.connected?]⟩
    | _ => cases hcall

/-- The representatives tell which variables the pairs connect. -/
def Connects (pairs : List (Nat × Nat)) (a : Arena α) : Prop :=
  ∀ u u', a.root u = a.root u' ↔ Relation.EqvGen (fun x y => (x, y) ∈ pairs) u u'

/-- Connected variables have one representative if the two of each pair have one. -/
lemma root_eq_of_eqvGen {pairs : List (Nat × Nat)}
    (h : ∀ x y, (x, y) ∈ pairs → a.root x = a.root y)
    (heqv : Relation.EqvGen (fun x y => (x, y) ∈ pairs) u v) : a.root u = a.root v := by
  induction heqv with
  | rel x y hmem => exact h x y hmem
  | refl x => rfl
  | symm x y _ ih => exact ih.symm
  | trans x y z _ _ ih ih' => exact ih.trans ih'

/-- A call that joins two classes connects their variables. -/
lemma Joins.connects {call : Call α} {pairs : List (Nat × Nat)} (h : Connects pairs a)
    (hjoins : Joins call a a') : Connects (pairs ++ call.connected?.toList) a' := by
  have hmono : ∀ {x y}, a.root x = a.root y →
      Relation.EqvGen (fun x y => (x, y) ∈ pairs ++ call.connected?.toList) x y := fun heq =>
    Relation.EqvGen.mono (fun _ _ hmem => List.mem_append_left _ hmem) _ _ ((h _ _).1 heq)
  intro u u'
  constructor
  · rw [hjoins]
    rintro (heq | ⟨v, w, hcall, hu, hu'⟩)
    · exact hmono heq
    · have hvw : Relation.EqvGen (fun x y => (x, y) ∈ pairs ++ call.connected?.toList) v w :=
        .rel _ _ (by simp [hcall])
      have hto : ∀ {u}, a.Among v w u →
          Relation.EqvGen (fun x y => (x, y) ∈ pairs ++ call.connected?.toList) u v := by
        rintro u (hv | hw)
        · exact hmono hv
        · exact .trans _ _ _ (hmono hw) (.symm _ _ hvw)
      exact .trans _ _ _ (hto hu) (.symm _ _ (hto hu'))
  · refine root_eq_of_eqvGen fun x y hmem => (hjoins x y).2 ?_
    rcases List.mem_append.1 hmem with hold | hnew
    · exact .inl ((h x y).2 (.rel _ _ hold))
    · exact .inr ⟨x, y, by simpa using hnew, .inl rfl, .inr rfl⟩

/-- A whole run: every variable stays rooted, and the representatives tell what was unified. -/
lemma rooted_connects_of_foldlM {pairs : List (Nat × Nat)} {calls : List (Call α)}
    (h : Rooted a.cells) (hconnects : Connects pairs a)
    (hcalls : calls.foldlM perform a = some a') :
    Rooted a'.cells ∧ Connects (pairs ++ unified calls) a' := by
  induction calls generalizing a pairs with
  | nil =>
    obtain rfl := Option.some.inj hcalls
    simpa [unified] using ⟨h, hconnects⟩
  | cons call calls ih =>
    rw [List.foldlM_cons] at hcalls
    obtain ⟨b, hperform, hrest⟩ := Option.bind_eq_some_iff.1 hcalls
    obtain ⟨hrooted, hjoins⟩ := rooted_joins_of_perform h hperform
    have := ih hrooted (hjoins.connects hconnects) hrest
    rw [List.append_assoc] at this
    have hunified : unified (call :: calls) = call.connected?.toList ++ unified calls := by
      cases hcall : call.connected? <;> simp [unified, hcall]
    rwa [hunified]

/-- The arena is a partition of the variables it has issued, with at most one value for each class;
`pairs` are the variables unified so far. -/
structure Partitioned (pairs : List (Nat × Nat)) (a : Arena α) : Prop where
  /-- No variable reaches itself along links. -/
  acyclic : ∀ v, ¬ Relation.TransGen (LinksTo a.cells) v v
  /-- The links lead from a variable to one that is no link. -/
  isRoot : ∀ v < a.size, IsRoot a.cells (a.root v) ∧
    Relation.ReflTransGen (LinksTo a.cells) v (a.root v)
  /-- The classes are those of the unifications. -/
  connects : Connects pairs a
  fresh : ∃ a', fresh a = .ok a.size a' ∧ Issued a a' none
  freshBound : ∀ x, ∃ a', freshBound x a = .ok a.size a' ∧ Issued a a' (some x)
  follow : ∀ v < a.size, ∃ a', follow v a = .ok (a.root v) a' ∧ Alike a a'
  value : ∀ v < a.size, ∃ a', value v a = .ok (a.classValue v) a' ∧ Alike a a'
  isBound : ∀ v < a.size, ∃ a', isBound v a = .ok (a.classValue v).isSome a' ∧ Alike a a'
  update_some : ∀ v < a.size, ∀ f x, a.classValue v = some x →
    ∃ a', update v f a = .ok (some (f x)) a' ∧ Assigned a a' v (f x)
  update_none : ∀ v < a.size, ∀ f, a.classValue v = none →
    ∃ a', update v f a = .ok none a' ∧ Alike a a'
  bind_none : ∀ v < a.size, ∀ x, a.classValue v = none →
    ∃ a', bind v x a = .ok () a' ∧ Assigned a a' v x
  bind_some : ∀ v < a.size, ∀ x y, a.classValue v = some y →
    ∃ a', bind v x a = .error .alreadyBound a' ∧ Alike a a'
  /-- Within a class a unification changes nothing and asks nothing. -/
  unify_same : ∀ v < a.size, ∀ w < a.size, a.root v = a.root w →
    ∃ a', (∀ reconcile changed, unify v w reconcile changed a = .ok ⟨none, changed, false⟩ a') ∧
      Alike a a'
  /-- If a value is missing, the other one stays, and nothing is asked. -/
  unify_one : ∀ v < a.size, ∀ w < a.size, a.root v ≠ a.root w →
    (a.classValue v = none ∨ a.classValue w = none) →
    ∃ a', (∀ reconcile changed, unify v w reconcile changed a = .ok ⟨none, true, false⟩ a') ∧
      Merged a a' v w ((a.classValue v).or (a.classValue w))
  /-- Two values are reconciled, and the answer to that is all that the outcome depends on. -/
  unify_both : ∀ v < a.size, ∀ w < a.size, a.root v ≠ a.root w → ∀ x y,
    a.classValue v = some x → a.classValue w = some y → ∃ next : α → Arena α,
      (∀ reconcile changed, (reconcile x y changed).fault = none →
        unify v w reconcile changed a =
          .ok ⟨none, true, true⟩ (next (reconcile x y changed).value)) ∧
      ∀ z, Merged a (next z) v w (some z)

/-- After every sequence of calls on issued variables in which no unification is refused, the arena is
a partition of its variables with at most one value for each class, whose classes are those of the
unifications made. -/
theorem partitioned_of_performAll (calls : List (Call α)) (a : Arena α)
    (h : performAll calls = some a) : Partitioned (unified calls) a := by
  have hstart : Connects [] (empty : Arena α) := by
    refine fun u u' => ⟨fun heq => ?_, root_eq_of_eqvGen fun x y hmem => by cases hmem⟩
    rw [root_of_size_le (Nat.zero_le u), root_of_size_le (Nat.zero_le u')] at heq
    exact heq ▸ .refl u
  have hempty : Rooted (empty : Arena α).cells := fun v hv => absurd hv (Nat.not_lt_zero v)
  obtain ⟨hrooted, hconnects⟩ := rooted_connects_of_foldlM hempty hstart h
  exact {
    acyclic := hrooted.acyclic
    isRoot := fun v hv => ⟨isRoot_root hrooted hv, (leads_root hrooted hv).reflTransGen⟩
    connects := hconnects
    fresh := ⟨_, rfl, (issued_append hrooted none).2⟩
    freshBound := fun x => ⟨_, rfl, (issued_append hrooted (some x)).2⟩
    follow := fun v hv => (exists_follow hrooted hv).imp fun _ h => ⟨h.1, h.2.2⟩
    value := fun v hv => (exists_value hrooted hv).imp fun _ h => ⟨h.1, h.2.2⟩
    isBound := fun v hv => (exists_isBound hrooted hv).imp fun _ h => ⟨h.1, h.2.2⟩
    update_some := fun v hv f x hx =>
      (exists_update_some hrooted hv f hx).imp fun _ h => ⟨h.1, h.2.2⟩
    update_none := fun v hv f hx =>
      (exists_update_none hrooted hv f hx).imp fun _ h => ⟨h.1, h.2.2⟩
    bind_none := fun v hv x hx => (exists_bind_none hrooted hv x hx).imp fun _ h => ⟨h.1, h.2.2⟩
    bind_some := fun v hv x y hy => (exists_bind_some hrooted hv x hy).imp fun _ h => ⟨h.1, h.2.2⟩
    unify_same := fun v hv w hw heq =>
      (exists_unify_same hrooted hv hw heq).imp fun _ h => ⟨h.1, h.2.2⟩
    unify_one := fun v hv w hw hne hnone =>
      (exists_unify_one hrooted hv hw hne hnone).imp fun _ h => ⟨h.1, h.2.2⟩
    unify_both := fun v hv w hw hne x y hx hy =>
      (exists_unify_both hrooted hv hw hne hx hy).imp fun _ h => ⟨h.1, fun z => (h.2 z).2⟩ }

/-- Links in both directions, a class that refuses a second value, two values that are added, and a
chain that is shortened. -/
def chainedCalls : List (Call Nat) :=
  [.fresh, .freshBound 5, .fresh, .freshBound 7,
    .unify 0 1 (fun x _ flag => ⟨x, flag, none⟩) false,
    .unify 2 0 (fun x _ flag => ⟨x, flag, none⟩) false,
    .bind 2 9,
    .unify 3 0 (fun x y flag => ⟨x + y, flag, none⟩) false,
    .follow 0]

/-- All four variables end up in one class, whose value is the sum of the two given. -/
theorem partitioned_chainedCalls :
    performAll chainedCalls = some ⟨[.link 3, .link 3, .link 1, .bound 12]⟩ ∧
      Partitioned [(0, 1), (2, 0), (3, 0)]
        (⟨[.link 3, .link 3, .link 1, .bound 12]⟩ : Arena Nat) :=
  ⟨rfl, partitioned_of_performAll chainedCalls _ rfl⟩

end Arena

end Inliner
