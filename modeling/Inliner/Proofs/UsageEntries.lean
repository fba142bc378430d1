import Inliner.Term.Usage
import Inliner.Proofs.MapEntries

/-!
# Entries of usage records

The six maps of a usage record, seen as one: an `Entity` is a key of one of them, and `Usage.count?`
is its count. For each operation on records there is one equation that says what becomes of every
count: `count?_refer`, `count?_merge` and `count?_either`.

A count says two things. The entity is referred to at all if there is one (`Usage.Has`), and it is
referred to at least `Usage.definite` times, which is zero unless the count is positive. Counts that
are neither positive nor `possible` say nothing; records are `Proper` if they have none. A proper
record is determined by what it says (`Usage.Proper.eq`).
-/

namespace Inliner

/-! ## Numbers -/

namespace Count

variable {ν : Type} [Count ν]

/-- Unbounded integers stand for themselves. -/
@[simp] lemma toInt_int (n : Int) : toInt n = n :=
  rfl

/-- There is no limit to unbounded integers. -/
@[simp] lemma fits_int (n : Nat) : Fits Int n :=
  trivial

/-- One reference is a positive number of them. -/
lemma one_pos : 0 < toInt (1 : ν) := by
  rw [toInt_one]
  exact Int.one_pos

/-- The least of several numbers stands for the least of the integers that they stand for. -/
lemma toInt_min? (ns : List ν) :
    ns.min?.map toInt = (ns.map toInt).min? := by
  have hfold : ∀ (ns : List ν) (first : ν),
      toInt (ns.foldl min first) = (ns.map toInt).foldl min (toInt first) := by
    intro ns
    induction ns with
    | nil => exact fun _ => rfl
    | cons n ns ih =>
      intro first
      rw [List.foldl_cons, ih, toInt_min, List.map_cons, List.foldl_cons, Int.min_def]
  cases ns with
  | nil => rfl
  | cons first rest => exact congrArg some (hfold rest first)

end Count

/-! ## Counts of one kind of entity -/

namespace Tally

open Inliner.Count Std

variable {κ ν : Type} [Ord κ] [TransOrd κ] [LawfulEqOrd κ] [DecidableEq κ] [Count ν]

/-- The count of an entity after `delta` more references. -/
def added (count? : Option ν) (delta : ν) (always : Bool) : ν :=
  match count? with
  | none => if always then delta else possible
  | some count => if always then (if 0 < toInt count then count + delta else delta) else count

/-- The count of an entity in one piece of code after another. -/
def sequel (count? next? : Option ν) (always : Bool) : Option ν :=
  match next? with
  | none => count?
  | some next => some (added count? next (always && decide (0 < toInt next)))

/-- The count of an entity if exactly one of several pieces of code is run. -/
def choice (counts : List (Option ν)) : Option ν :=
  if counts.any Option.isSome then
    some (((counts.mapM (Option.filter (0 < toInt ·))).bind List.min?).getD possible)
  else none

/-- What the counts are after more references to one entity. -/
lemma get?_add (m : Tally κ ν) (k k' : κ) (delta : ν) (always : Bool) :
    (m.add k delta always).get? k' =
      if k' = k then some (added (m.get? k') delta always) else m.get? k' := by
  unfold add added
  cases hcount : m.get? k with
  | none => by_cases h : k' = k <;> simp [KeyMap.get?_insert, h, hcount]
  | some count =>
    by_cases h : k' = k <;> cases always <;> simp [KeyMap.get?_insert, h, hcount]

/-- What the counts are after the references of another piece of code. -/
lemma get?_merge (m sub : Tally κ ν) (always : Bool) (k : κ) :
    (m.merge sub always).get? k = sequel (m.get? k) (sub.get? k) always := by
  have hfold : ∀ (entries : List (κ × ν)) (m : Tally κ ν), (entries.map Prod.fst).Nodup →
      (entries.foldl (fun m p => m.add p.1 p.2 (always && decide (0 < toInt p.2))) m).get? k =
        sequel (m.get? k) (KeyMap.findIn k entries) always := by
    intro entries
    induction entries with
    | nil => exact fun m _ => rfl
    | cons entry entries ih =>
      intro m hnodup
      obtain ⟨hnot, hnodup⟩ := List.nodup_cons.1 hnodup
      have hcompare : compare k entry.1 = .eq ↔ k = entry.1 := LawfulEqCmp.compare_eq_iff_eq
      rw [List.foldl_cons, ih _ hnodup, get?_add]
      by_cases h : k = entry.1
      · have hrest : KeyMap.findIn k entries = none :=
          (KeyMap.findIn_eq_none_iff k entries).2 (h ▸ hnot)
        rw [hrest]
        simp [sequel, KeyMap.findIn, h]
      · simp [KeyMap.findIn, hcompare, h]
  exact hfold sub.entries m sub.nodup_keys

/-- What the counts are if one of several pieces of code is run. -/
lemma get?_either (alternatives : List (Tally κ ν)) (k : κ) :
    (either alternatives).get? k = choice (alternatives.map fun m => m.get? k) := by
  have hkeys : k ∈ alternatives.flatMap KeyMap.keys ↔
      (alternatives.map fun m => m.get? k).any Option.isSome = true := by
    simp [KeyMap.mem_keys_iff, Option.isSome_iff_exists]
  have hcounts : eitherCount alternatives k =
      (((alternatives.map fun m => m.get? k).mapM (Option.filter (0 < toInt ·))).bind
        List.min?).getD possible := by
    rw [List.mapM_map]
    rfl
  rw [either, KeyMap.get?_ofList_map, choice, hcounts]
  by_cases h : k ∈ alternatives.flatMap KeyMap.keys
  · rw [if_pos h, if_pos (hkeys.1 h)]
  · rw [if_neg h, if_neg fun hany => h (hkeys.2 hany)]

/-! ### What a count says -/

/-- How many references a count makes certain. -/
def definite : Option ν → Nat
  | none => 0
  | some count => (toInt count).toNat

/-- The count is positive or `possible`, if there is one. -/
def Proper (count? : Option ν) : Prop :=
  ∀ count, count? = some count → count = possible ∨ 0 < toInt count

@[simp] lemma toInt_possible : toInt (possible : ν) = -1 :=
  toInt_neg_one

omit [TransOrd κ] [DecidableEq κ] in
/-- A bound on all counts bounds what each of them makes certain. -/
lemma definite_get?_le {m : Tally κ ν} {n : Nat}
    (h : ∀ entry ∈ m.entries, toInt entry.2 ≤ (n : Int)) (k : κ) : definite (m.get? k) ≤ n := by
  cases hcount : m.get? k with
  | none => exact Nat.zero_le n
  | some count =>
    have hle := h (k, count) ((KeyMap.findIn_eq_some_iff k count m.nodup_keys).1 hcount)
    exact Int.toNat_le.2 hle

/-- Definite references are added up, if the sum fits. -/
lemma definite_added (count? : Option ν) {delta : ν} (hdelta : 0 < toInt delta)
    (hfits : Fits ν (definite count? + (toInt delta).toNat)) :
    definite (some (added count? delta true)) = definite count? + (toInt delta).toNat := by
  cases count? with
  | none => simp [added, definite]
  | some count =>
    by_cases h : 0 < toInt count
    · have hsum : toInt (count + delta) = toInt count + toInt delta := by
        refine toInt_add h hdelta ?_
        rwa [Int.toNat_add h.le hdelta.le]
      simp only [added, definite, if_true, if_pos h, hsum]
      omega
    · simp only [added, definite, if_true, if_neg h]
      omega

/-- No more references become certain than there are, whether or not the sum fits. -/
lemma definite_added_le (count? : Option ν) {delta : ν} (hdelta : 0 < toInt delta) :
    definite (some (added count? delta true)) ≤ definite count? + (toInt delta).toNat := by
  cases count? with
  | none => simp [added, definite]
  | some count =>
    by_cases h : 0 < toInt count
    · have hsum := toInt_add_le h hdelta
      simp only [added, definite, if_true, if_pos h]
      omega
    · simp only [added, definite, if_true, if_neg h]
      omega

/-- Possible references make nothing certain. -/
lemma definite_added_possible (count? : Option ν) (delta : ν) :
    definite (some (added count? delta false)) = definite count? := by
  cases count? <;> simp [added, definite]

/-- A count that is not positive makes nothing certain. -/
lemma definite_eq_zero {count : ν} (h : ¬ 0 < toInt count) : definite (some count) = 0 := by
  simp only [definite]
  omega

/-- One piece of code after another makes the references of both certain, if their sum fits. -/
lemma definite_sequel {count? next? : Option ν} (hfits : Fits ν (definite count? + definite next?)) :
    definite (sequel count? next? true) = definite count? + definite next? := by
  cases next? with
  | none => rfl
  | some next =>
    by_cases h : 0 < toInt next
    · rw [sequel, decide_eq_true h, Bool.and_self]
      exact definite_added count? h hfits
    · rw [sequel, decide_eq_false h, Bool.and_false, definite_added_possible, definite_eq_zero h,
        Nat.add_zero]

/-- One piece of code after another never makes more certain than both do. -/
lemma definite_sequel_le (count? next? : Option ν) :
    definite (sequel count? next? true) ≤ definite count? + definite next? := by
  cases next? with
  | none => exact Nat.le_refl _
  | some next =>
    by_cases h : 0 < toInt next
    · rw [sequel, decide_eq_true h, Bool.and_self]
      exact definite_added_le count? h
    · rw [sequel, decide_eq_false h, Bool.and_false, definite_added_possible]
      exact Nat.le_add_right _ _

/-- What may not be reached makes nothing certain. -/
lemma definite_sequel_possible (count? next? : Option ν) :
    definite (sequel count? next? false) = definite count? := by
  cases next? with
  | none => rfl
  | some next => exact definite_added_possible count? next

/-- Either all counts are positive, or one of them makes nothing certain. -/
lemma mapM_filter_cases (counts : List (Option ν)) :
    (∃ ns, counts.mapM (Option.filter (0 < toInt ·)) = some ns ∧ counts = ns.map some ∧
        ∀ n ∈ ns, 0 < toInt n) ∨
      counts.mapM (Option.filter (0 < toInt ·)) = none ∧ ∃ count? ∈ counts, definite count? = 0 := by
  induction counts with
  | nil => exact .inl ⟨[], rfl, rfl, by simp⟩
  | cons count? counts ih =>
    rw [List.mapM_cons]
    cases count? with
    | none => exact .inr ⟨rfl, none, List.mem_cons_self, rfl⟩
    | some count =>
      by_cases hcount : 0 < toInt count
      · have hfilter : (some count).filter (0 < toInt ·) = some count := by simp [hcount]
        rw [hfilter]
        rcases ih with ⟨ns, hmapM, rfl, hpos⟩ | ⟨hmapM, count?, hmem, hzero⟩
        · refine .inl ⟨count :: ns, by rw [hmapM]; rfl, rfl, ?_⟩
          exact List.forall_mem_cons.2 ⟨hcount, hpos⟩
        · exact .inr ⟨by rw [hmapM]; rfl, count?, List.mem_cons_of_mem _ hmem, hzero⟩
      · have hfilter : (some count).filter (0 < toInt ·) = none := by simpa using hcount
        rw [hfilter]
        exact .inr ⟨rfl, some count, List.mem_cons_self, definite_eq_zero hcount⟩

/-- The least of several numbers is one of them, and no other is less. -/
lemma exists_min? {ns : List ν} (hne : ns ≠ []) :
    ∃ least ∈ ns, ns.min? = some least ∧ ∀ n ∈ ns, toInt least ≤ toInt n := by
  obtain ⟨least, hleast⟩ := Option.ne_none_iff_exists'.1 (mt List.min?_eq_none_iff.1 hne)
  have hmin : (ns.map toInt).min? = some (toInt least) := by
    rw [← toInt_min?, hleast]
    rfl
  obtain ⟨hmem, hle⟩ := List.min?_eq_some_iff.1 hmin
  obtain ⟨n, hn, heq⟩ := List.mem_map.1 hmem
  refine ⟨least, toInt_inj heq ▸ hn, hleast, fun n hn => ?_⟩
  exact hle _ (List.mem_map_of_mem hn)

/-- A choice makes certain what all alternatives do. -/
lemma le_definite_choice_iff {counts : List (Option ν)} (hne : counts ≠ []) (n : Nat) :
    n ≤ definite (choice counts) ↔ ∀ count? ∈ counts, n ≤ definite count? := by
  rcases mapM_filter_cases counts with ⟨ns, hmapM, rfl, hpos⟩ | ⟨hmapM, count?, hmem, hzero⟩
  · have hne' : ns ≠ [] := fun h => hne (by rw [h, List.map_nil])
    obtain ⟨least, hmem, hleast, hle⟩ := exists_min? hne'
    have hany : (ns.map some).any Option.isSome = true :=
      List.any_eq_true.2 ⟨some least, List.mem_map_of_mem hmem, rfl⟩
    rw [choice, if_pos hany, hmapM, Option.bind_some, hleast, Option.getD_some]
    simp only [List.forall_mem_map, definite]
    constructor
    · intro hn m hm
      have := hle m hm
      omega
    · exact fun hall => hall least hmem
  · have hchoice : definite (choice counts) = 0 := by
      rw [choice, hmapM]
      split
      · simp [definite]
      · rfl
    rw [hchoice]
    constructor
    · exact fun hn _ _ => (Nat.le_zero.1 hn).symm ▸ Nat.zero_le _
    · exact fun hall => hzero ▸ hall count? hmem

/-- A choice makes certain what both alternatives do. -/
lemma definite_choice (left? right? : Option ν) :
    definite (choice [left?, right?]) = min (definite left?) (definite right?) := by
  refine eq_of_forall_le_iff fun n => ?_
  rw [le_definite_choice_iff (List.cons_ne_nil _ _), Nat.le_min]
  simp

/-- There is a count after both pieces of code if there is one after either. -/
lemma isSome_sequel (count? next? : Option ν) (always : Bool) :
    (sequel count? next? always).isSome = (count?.isSome || next?.isSome) := by
  cases next? <;> simp [sequel]

/-- A choice has a count if one of the alternatives has. -/
lemma isSome_choice (counts : List (Option ν)) :
    (choice counts).isSome = counts.any Option.isSome := by
  unfold choice
  cases h : counts.any Option.isSome <;> simp

/-- Counts stay proper as long as they fit. -/
lemma proper_added {count? : Option ν} (hcount : Proper count?) {delta : ν} {always : Bool}
    (hdelta : always = true → 0 < toInt delta ∧ Fits ν (definite count? + (toInt delta).toNat)) :
    Proper (some (added count? delta always)) := by
  rintro _ ⟨⟩
  cases always with
  | true =>
    obtain ⟨hpos, hfits⟩ := hdelta rfl
    have hsum := definite_added count? hpos hfits
    simp only [definite] at hsum
    exact .inr (by omega)
  | false =>
    cases count? with
    | none => exact .inl rfl
    | some count => exact hcount count rfl

/-- Counts stay proper after another piece of code, as long as they fit. -/
lemma proper_sequel {count? : Option ν} (hcount : Proper count?) {next? : Option ν} {always : Bool}
    (hfits : always = true → Fits ν (definite count? + definite next?)) :
    Proper (sequel count? next? always) := by
  cases next? with
  | none => exact hcount
  | some next =>
    refine proper_added hcount fun h => ?_
    obtain ⟨halways, hnext⟩ := Bool.and_eq_true_iff.1 h
    exact ⟨of_decide_eq_true hnext, hfits halways⟩

/-- Choices are proper. -/
lemma proper_choice (counts : List (Option ν)) : Proper (choice counts) := by
  intro count hcount
  unfold choice at hcount
  split at hcount
  · rcases mapM_filter_cases counts with ⟨ns, hmapM, rfl, hpos⟩ | ⟨hmapM, -⟩
    · rw [hmapM, Option.bind_some] at hcount
      by_cases hne : ns = []
      · rw [hne] at hcount
        exact .inl (Option.some.inj hcount).symm
      · obtain ⟨least, hmem, hleast, -⟩ := exists_min? hne
        rw [hleast] at hcount
        exact .inr (Option.some.inj hcount ▸ hpos least hmem)
    · rw [hmapM] at hcount
      exact .inl (Option.some.inj hcount).symm
  · cases hcount

/-- A proper count stands for `-1` or for a positive integer. -/
lemma Proper.toInt_cases {count : ν} (h : Proper (some count)) :
    toInt count = -1 ∨ 0 < toInt count := by
  rcases h count rfl with rfl | hpos
  · exact .inl toInt_possible
  · exact .inr hpos

/-- A proper count is determined by whether there is one and how much it makes certain. -/
lemma Proper.eq {count? other? : Option ν} (hcount : Proper count?) (hother : Proper other?)
    (hsome : count?.isSome = other?.isSome) (hdefinite : definite count? = definite other?) :
    count? = other? := by
  cases count? with
  | none =>
    cases other? with
    | none => rfl
    | some other => cases hsome
  | some count =>
    cases other? with
    | none => cases hsome
    | some other =>
      have hcases := hcount.toInt_cases
      have hcases' := hother.toInt_cases
      simp only [definite] at hdefinite
      exact congrArg some (toInt_inj (by omega))

/-- The order of the alternatives does not matter. -/
lemma choice_perm {counts counts' : List (Option ν)} (h : counts.Perm counts') :
    choice counts = choice counts' := by
  refine (proper_choice counts).eq (proper_choice counts') ?_ ?_
  · rw [isSome_choice, isSome_choice, h.any_eq]
  · by_cases hne : counts = []
    · rw [hne] at h ⊢
      rw [List.nil_perm.1 h]
    · have hne' : counts' ≠ [] := fun hnil => hne (List.perm_nil.1 (hnil ▸ h))
      refine eq_of_forall_le_iff fun n => ?_
      rw [le_definite_choice_iff hne, le_definite_choice_iff hne']
      simp only [h.mem_iff]

end Tally

/-! ## Counts of all entities -/

/-- What is counted: a key of one of the maps of a usage record. -/
inductive Entity where
  | assembly (name : String)
  | type (t : TypeRef)
  | method (m : MethodRef)
  | field (f : FieldRef)
  /-- A variable that is read. -/
  | read (id : VarId)
  /-- A variable to which a pointer is taken. -/
  | pointer (id : VarId)
  deriving DecidableEq

/-- The entities for which a reference to one counts: the declaring type comes with its members, and
the assembly with its types. -/
def Entity.withOwners : Entity → List Entity
  | .assembly name => [.assembly name]
  | .type t => [.type t, .assembly t.assembly]
  | .method m => [.method m, .type m.declaring, .assembly m.declaring.assembly]
  | .field f => [.field f, .type f.declaring, .assembly f.declaring.assembly]
  | .read id => [.read id]
  | .pointer id => [.pointer id]

namespace Usage

open Inliner.Count

variable {ν : Type}

/-- The count of an entity. -/
def count? (u : Usage ν) : Entity → Option ν
  | .assembly name => u.assemblies.get? name
  | .type t => u.types.get? t
  | .method m => u.methods.get? m
  | .field f => u.fields.get? f
  | .read id => u.reads.get? id
  | .pointer id => u.pointers.get? id

/-- All counts of a record. -/
def counts (u : Usage ν) : List ν :=
  u.assemblies.entries.map Prod.snd ++ (u.types.entries.map Prod.snd ++
    (u.methods.entries.map Prod.snd ++ (u.fields.entries.map Prod.snd ++
      (u.reads.entries.map Prod.snd ++ u.pointers.entries.map Prod.snd))))

/-- There is a count for the entity. -/
def Has (u : Usage ν) (k : Entity) : Prop :=
  (u.count? k).isSome = true

/-- There are no counts in the empty record. -/
@[simp] lemma count?_empty (k : Entity) : (Usage.empty : Usage ν).count? k = none := by
  cases k <;> rfl

/-- The empty record has no counts. -/
@[simp] lemma not_has_empty (k : Entity) : ¬ (Usage.empty : Usage ν).Has k := by
  simp [Has]

/-- An entity without a count is not referred to. -/
lemma count?_eq_none_iff (u : Usage ν) (k : Entity) : u.count? k = none ↔ ¬ u.Has k := by
  simp [Has]

/-- Records with the same counts are equal. -/
lemma eq_of_count? {u v : Usage ν} (h : ∀ k, u.count? k = v.count? k) : u = v := by
  have hassemblies : u.assemblies = v.assemblies := KeyMap.eq_of_get? fun k => h (.assembly k)
  have htypes : u.types = v.types := KeyMap.eq_of_get? fun k => h (.type k)
  have hmethods : u.methods = v.methods := KeyMap.eq_of_get? fun k => h (.method k)
  have hfields : u.fields = v.fields := KeyMap.eq_of_get? fun k => h (.field k)
  have hreads : u.reads = v.reads := KeyMap.eq_of_get? fun k => h (.read k)
  have hpointers : u.pointers = v.pointers := KeyMap.eq_of_get? fun k => h (.pointer k)
  cases u
  cases v
  simp_all

/-! ### The operations -/

variable [Count ν]

/-- Counts references to an entity. -/
def refer (u : Usage ν) (delta : ν) (always : Bool) : Entity → Usage ν
  | .assembly name => u.addAssembly name delta always
  | .type t => u.addType t delta always
  | .method m => u.addMethod m delta always
  | .field f => u.addField f delta always
  | .read id => u.addVariable id delta always
  | .pointer id => u.addPointer id delta always

/-- References to an entity change its count and those of its owners. -/
lemma count?_refer (u : Usage ν) (delta : ν) (always : Bool) (r k : Entity) :
    (u.refer delta always r).count? k =
      if k ∈ r.withOwners then some (Tally.added (u.count? k) delta always) else u.count? k := by
  cases r <;> cases k <;>
    simp [refer, count?, addAssembly, addType, addMethod, addField, addVariable, addPointer,
      Entity.withOwners, Tally.get?_add]

/-- Merging treats each entity on its own. -/
lemma count?_merge (u sub : Usage ν) (always : Bool) (k : Entity) :
    (u.merge sub always).count? k = Tally.sequel (u.count? k) (sub.count? k) always := by
  cases k <;> exact Tally.get?_merge _ _ _ _

/-- A choice treats each entity on its own. -/
lemma count?_either (alternatives : List (Usage ν)) (k : Entity) :
    (either alternatives).count? k = Tally.choice (alternatives.map fun u => u.count? k) := by
  cases k <;> simp only [count?, either, Tally.get?_either, List.map_map, Function.comp_def]

/-! ### What a record says of an entity -/

/-- How many references to an entity are certain. -/
def definite (u : Usage ν) (k : Entity) : Nat :=
  Tally.definite (u.count? k)

/-- All counts are positive or `possible`. -/
def Proper (u : Usage ν) : Prop :=
  ∀ k, Tally.Proper (u.count? k)

/-- The empty record makes nothing certain. -/
@[simp] lemma definite_empty (k : Entity) : (Usage.empty : Usage ν).definite k = 0 := by
  rw [definite, count?_empty]
  rfl

/-- The empty record is proper. -/
lemma proper_empty : (Usage.empty : Usage ν).Proper := by
  intro k count hcount
  simp at hcount

/-- A positive count is what is certain. -/
lemma count?_eq_some_iff (u : Usage Int) (k : Entity) {n : Nat} (hn : 0 < n) :
    u.count? k = some (n : Int) ↔ u.definite k = n := by
  unfold definite Tally.definite
  cases u.count? k with
  | none => simp [Nat.ne_of_lt hn]
  | some count =>
    simp only [Option.some.injEq, toInt_int]
    omega

/-- A bound on all counts of a record bounds what is certain. -/
lemma definite_le {u : Usage ν} {n : Nat} (h : ∀ count ∈ u.counts, toInt count ≤ (n : Int))
    (k : Entity) : u.definite k ≤ n := by
  simp only [counts, List.forall_mem_append, List.forall_mem_map] at h
  obtain ⟨hassemblies, htypes, hmethods, hfields, hreads, hpointers⟩ := h
  cases k with
  | assembly name => exact Tally.definite_get?_le hassemblies name
  | type t => exact Tally.definite_get?_le htypes t
  | method m => exact Tally.definite_get?_le hmethods m
  | field f => exact Tally.definite_get?_le hfields f
  | read id => exact Tally.definite_get?_le hreads id
  | pointer id => exact Tally.definite_get?_le hpointers id

/-- In a proper record, the count is `possible` if no reference is certain. -/
lemma Proper.count?_eq_possible_iff {u : Usage ν} (h : u.Proper) (k : Entity) :
    u.count? k = some Tally.possible ↔ u.Has k ∧ u.definite k = 0 := by
  have hk := h k
  unfold Has definite Tally.definite
  cases hcount : u.count? k with
  | none => simp
  | some count =>
    simp only [Option.some.injEq, Option.isSome_some, true_and]
    constructor
    · rintro rfl
      simp
    · intro hzero
      rcases hk count hcount with hpossible | hpos
      · exact hpossible
      · omega

/-- Merging makes the references of both records certain, if their sum fits. -/
lemma definite_merge {u sub : Usage ν} {k : Entity}
    (hfits : Fits ν (u.definite k + sub.definite k)) :
    (u.merge sub true).definite k = u.definite k + sub.definite k := by
  rw [definite, count?_merge]
  exact Tally.definite_sequel hfits

/-- Merging never makes more certain than both records do. -/
lemma definite_merge_le (u sub : Usage ν) (k : Entity) :
    (u.merge sub true).definite k ≤ u.definite k + sub.definite k := by
  rw [definite, count?_merge]
  exact Tally.definite_sequel_le _ _

/-- Merging what may not be reached makes nothing certain. -/
lemma definite_merge_possible (u sub : Usage ν) (k : Entity) :
    (u.merge sub false).definite k = u.definite k := by
  rw [definite, count?_merge, Tally.definite_sequel_possible]
  rfl

/-- Definite references to an entity count for it and for its owners, if the sums fit. -/
lemma definite_refer {u : Usage ν} {delta : ν} (hdelta : 0 < toInt delta) {r k : Entity}
    (hfits : k ∈ r.withOwners → Fits ν (u.definite k + (toInt delta).toNat)) :
    (u.refer delta true r).definite k =
      u.definite k + if k ∈ r.withOwners then (toInt delta).toNat else 0 := by
  rw [definite, count?_refer]
  split
  · exact Tally.definite_added _ hdelta (hfits ‹_›)
  · rfl

/-- No reference counts for more than it and its owners. -/
lemma definite_refer_le (u : Usage ν) {delta : ν} (hdelta : 0 < toInt delta) (r k : Entity) :
    (u.refer delta true r).definite k ≤
      u.definite k + if k ∈ r.withOwners then (toInt delta).toNat else 0 := by
  rw [definite, count?_refer]
  split
  · exact Tally.definite_added_le _ hdelta
  · exact Nat.le_refl _

/-- Possible references make nothing certain. -/
lemma definite_refer_possible (u : Usage ν) (delta : ν) (r k : Entity) :
    (u.refer delta false r).definite k = u.definite k := by
  rw [definite, count?_refer]
  split
  · exact Tally.definite_added_possible _ delta
  · rfl

/-- One of two pieces of code makes certain what both do. -/
lemma definite_either (left right : Usage ν) (k : Entity) :
    (either [left, right]).definite k = min (left.definite k) (right.definite k) := by
  rw [definite, count?_either]
  exact Tally.definite_choice _ _

/-- One of several pieces of code makes certain what all of them do. -/
lemma le_definite_either_iff {alternatives : List (Usage ν)} (hne : alternatives ≠ []) (k : Entity)
    (n : Nat) :
    n ≤ (either alternatives).definite k ↔ ∀ u ∈ alternatives, n ≤ u.definite k := by
  have hne' : (alternatives.map fun u => u.count? k) ≠ [] := fun h => hne (List.map_eq_nil_iff.1 h)
  rw [definite, count?_either, Tally.le_definite_choice_iff hne', List.forall_mem_map]
  rfl

/-- Merging joins the entities of both records. -/
lemma has_merge (u sub : Usage ν) (always : Bool) (k : Entity) :
    (u.merge sub always).Has k ↔ u.Has k ∨ sub.Has k := by
  simp [Has, count?_merge, Tally.isSome_sequel]

/-- A reference to an entity gives it and its owners a count. -/
lemma has_refer (u : Usage ν) (delta : ν) (always : Bool) (r k : Entity) :
    (u.refer delta always r).Has k ↔ u.Has k ∨ k ∈ r.withOwners := by
  by_cases h : k ∈ r.withOwners <;> simp [Has, count?_refer, h]

/-- A choice joins the entities of all alternatives. -/
lemma has_either (alternatives : List (Usage ν)) (k : Entity) :
    (either alternatives).Has k ↔ ∃ u ∈ alternatives, u.Has k := by
  simp [Has, count?_either, Tally.isSome_choice]

/-- Records stay proper when references are counted, as long as the counts fit. -/
lemma Proper.refer {u : Usage ν} (h : u.Proper) {delta : ν} {always : Bool}
    (hdelta : always = true → 0 < toInt delta) {r : Entity}
    (hfits : always = true → ∀ k ∈ r.withOwners, Fits ν (u.definite k + (toInt delta).toNat)) :
    (u.refer delta always r).Proper := by
  intro k
  rw [count?_refer]
  split
  · exact Tally.proper_added (h k) fun halways => ⟨hdelta halways, hfits halways k ‹_›⟩
  · exact h k

/-- Records stay proper when others are merged in, as long as the counts fit. -/
lemma Proper.merge {u sub : Usage ν} (h : u.Proper) {always : Bool}
    (hfits : always = true → ∀ k, Fits ν (u.definite k + sub.definite k)) :
    (u.merge sub always).Proper := by
  intro k
  rw [count?_merge]
  exact Tally.proper_sequel (h k) fun halways => hfits halways k

/-- Choices are proper. -/
lemma proper_either (alternatives : List (Usage ν)) : (either alternatives).Proper := by
  intro k
  rw [count?_either]
  exact Tally.proper_choice _

/-- Proper records that say the same of every entity are equal. -/
lemma Proper.eq {u v : Usage ν} (hu : u.Proper) (hv : v.Proper) (hhas : ∀ k, u.Has k ↔ v.Has k)
    (hdefinite : ∀ k, u.definite k = v.definite k) : u = v :=
  eq_of_count? fun k => (hu k).eq (hv k) (Bool.eq_iff_iff.2 (hhas k)) (hdefinite k)

end Usage

end Inliner
