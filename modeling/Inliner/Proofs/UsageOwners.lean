import Inliner.Proofs.StoredUsage
import Inliner.Proofs.UsageComposition

/-!
# Owners of what is referred to

A member belongs to its declaring type, and a type to its assembly. A reference to an entity counts
for its owners too, but after that the maps of a record are treated one by one: counts are added up,
replaced, lowered to the least one of several, or made merely possible. Each operation treats an
entity and its owner in the same way, so in every record that is built from the empty one
(`Usage.Built`), such as the usages of bodies and of whole libraries, owners have a count if what they
own has one (`Built.has_owner`).

The operations are monotone in the counts too, as long as all sums are exact. Then an owner is counted
at least as definitely as what it owns (`Usage.Owned`). An owner has more references than each of the
entities that it owns, and its count is the first that does not fit into a word any more.
-/

namespace Inliner

/-- What an entity belongs to. -/
def Entity.owner? : Entity → Option Entity
  | .assembly _ => none
  | .type t => some (.assembly t.assembly)
  | .method m => some (.type m.declaring)
  | .field f => some (.type f.declaring)
  | .read _ => none
  | .pointer _ => none

/-- A reference that counts for an entity counts for its owner. -/
lemma Entity.owner_mem_withOwners {r k owner : Entity} (h : k.owner? = some owner)
    (hk : k ∈ r.withOwners) : owner ∈ r.withOwners := by
  cases r <;> simp only [withOwners, List.mem_cons, List.not_mem_nil, or_false] at hk ⊢ <;>
    rcases hk with rfl | rfl | rfl <;> cases h <;> simp

namespace Tally

open Inliner.Count

variable {ν : Type} [Count ν]

/-- How much a count says: nothing if there is none, then a possible count, then one reference, two,
and so on. -/
def level : Option ν → Nat
  | none => 0
  | some count => if 0 < toInt count then (toInt count).toNat + 1 else 1

/-- A count says at least as much as another if it is there when the other is, and makes as many
references certain. -/
lemma level_le_iff (count? other? : Option ν) :
    level count? ≤ level other? ↔
      (count?.isSome = true → other?.isSome = true) ∧ definite count? ≤ definite other? := by
  cases count? with
  | none => simp [level, definite]
  | some count =>
    cases other? with
    | none =>
      simp only [level, definite]
      split <;> simp
    | some other =>
      simp only [level, definite, Option.isSome_some, true_and, imp_self]
      split <;> split <;> omega

end Tally

namespace Usage

open Inliner.Count

variable {ν : Type} [Count ν] {u sub : Usage ν}

/-! ## One operation -/

/-- Owners make at least as many references certain as what they own. -/
def Owned (u : Usage ν) : Prop :=
  ∀ k owner : Entity, k.owner? = some owner → u.definite k ≤ u.definite owner

/-- An empty record lacks no owner. -/
lemma owned_empty : (Usage.empty : Usage ν).Owned := by
  intro k owner _
  rw [definite_empty, definite_empty]

/-- Only the sums of owners have to fit. -/
lemma Owned.refer (hu : u.Owned) {delta : ν} (hdelta : 0 < toInt delta) {always : Bool} {r : Entity}
    (hfits : always = true → ∀ k ∈ r.withOwners, Fits ν (u.definite k + (toInt delta).toNat)) :
    (u.refer delta always r).Owned := by
  intro k owner howner
  have hle := hu k owner howner
  have hmem : k ∈ r.withOwners → owner ∈ r.withOwners := Entity.owner_mem_withOwners howner
  cases always with
  | true =>
    refine (definite_refer_le u hdelta r k).trans ?_
    rw [definite_refer hdelta (hfits rfl owner)]
    by_cases hk : k ∈ r.withOwners
    · rw [if_pos hk, if_pos (hmem hk)]
      exact Nat.add_le_add_right hle _
    · rw [if_neg hk]
      exact hle.trans (Nat.le_add_right _ _)
  | false => rwa [definite_refer_possible, definite_refer_possible]

/-- Merging keeps the owners, as long as definite references do not overflow. -/
lemma Owned.merge (hu : u.Owned) (hsub : sub.Owned) {always : Bool}
    (hfits : always = true → ∀ k, Fits ν (u.definite k + sub.definite k)) :
    (u.merge sub always).Owned := by
  intro k owner howner
  have hle := hu k owner howner
  have hle' := hsub k owner howner
  cases always with
  | true =>
    refine (definite_merge_le u sub k).trans ?_
    rw [definite_merge (hfits rfl owner)]
    exact Nat.add_le_add hle hle'
  | false => rwa [definite_merge_possible, definite_merge_possible]

/-- So does taking alternatives together. -/
lemma owned_either {alternatives : List (Usage ν)} (h : ∀ u ∈ alternatives, u.Owned) :
    (either alternatives).Owned := by
  intro k owner howner
  by_cases hne : alternatives = []
  · rw [hne]
    cases k <;> exact Nat.zero_le _
  · have hleast := (le_definite_either_iff hne k _).1 le_rfl
    refine (le_definite_either_iff hne owner _).2 fun u hu => ?_
    exact (hleast u hu).trans (h u hu k owner howner)

/-! ## Sequences of operations -/

/-- The records that are built from the empty one, with at least one reference counted at a time,
where `fits` holds of all sums of definite counts that come up on the way. -/
inductive Built (fits : Nat → Prop) : Usage ν → Prop
  | empty : Built fits .empty
  | refer {u : Usage ν} {delta : ν} (hu : Built fits u) (hdelta : 1 ≤ toInt delta) {always : Bool}
      {r : Entity}
      (hfits : always = true → ∀ k ∈ r.withOwners, fits (u.definite k + (toInt delta).toNat)) :
      Built fits (u.refer delta always r)
  | merge {u sub : Usage ν} (hu : Built fits u) (hsub : Built fits sub) {always : Bool}
      (hfits : always = true → ∀ k, fits (u.definite k + sub.definite k)) :
      Built fits (u.merge sub always)
  | either {alternatives : List (Usage ν)} (h : ∀ u ∈ alternatives, Built fits u) :
      Built fits (either alternatives)

/-- Owners have a count if what they own has one, whether or not the counts fit. -/
lemma Built.has_owner {fits : Nat → Prop} (h : u.Built fits) {k owner : Entity}
    (howner : k.owner? = some owner) (hk : u.Has k) : u.Has owner := by
  induction h with
  | empty => exact absurd hk (not_has_empty k)
  | refer _ _ _ ih =>
    rw [has_refer] at hk ⊢
    exact hk.imp ih (Entity.owner_mem_withOwners howner)
  | merge _ _ _ ihu ihsub =>
    rw [has_merge] at hk ⊢
    exact hk.imp ihu ihsub
  | either _ ih =>
    rw [has_either] at hk ⊢
    obtain ⟨u, hu, hk⟩ := hk
    exact ⟨u, hu, ih u hu hk⟩

/-- Owners are counted at least as definitely as what they own, if all counts fit. -/
lemma Built.owned (h : u.Built (Fits ν)) : u.Owned := by
  induction h with
  | empty => exact owned_empty
  | refer _ hdelta hfits ih => exact ih.refer hdelta hfits
  | merge _ _ hfits ihu ihsub => exact ihu.merge ihsub hfits
  | either _ ih => exact owned_either ih

/-- If all counts fit, an owner has a count that says at least as much as the count of what it
owns. -/
lemma Built.exists_owner_count (h : u.Built (Fits ν)) {k owner : Entity} {count : ν}
    (howner : k.owner? = some owner) (hcount : u.count? k = some count) :
    ∃ ownerCount, u.count? owner = some ownerCount ∧
      Tally.level (some count) ≤ Tally.level (some ownerCount) := by
  have hhas : u.Has k := by
    rw [Has, hcount]
    rfl
  obtain ⟨ownerCount, hownerCount⟩ := Option.isSome_iff_exists.1 (h.has_owner howner hhas)
  have hdefinite := h.owned k owner howner
  rw [definite, definite, hcount, hownerCount] at hdefinite
  exact ⟨ownerCount, hownerCount, (Tally.level_le_iff _ _).2 ⟨fun _ => rfl, hdefinite⟩⟩

/-- Terms add references by these operations. -/
lemma compositional_built : Compositional fun f =>
    ∀ (always : Bool) (u : Usage ν), u.Built (fun _ => True) →
      (f ν always u).Built fun _ => True where
  nothing _ _ hu := hu
  refer r always _ hu := hu.refer one_pos fun _ _ _ => trivial
  inTurn hf hg always u hu := hg always _ (hf always u hu)
  either hf hg always u hu := by
    refine hu.merge (.either ?_) fun _ _ => trivial
    simp only [List.forall_mem_cons, List.not_mem_nil, IsEmpty.forall_iff, implies_true, and_true]
    exact ⟨hf true _ .empty, hg true _ .empty⟩

end Usage

/-- The usage of a method body is built by these operations. -/
lemma MethodBody.built_usage (body : MethodBody) : body.usage.Built fun _ => True :=
  Usage.compositional_built.block body.stmts true .empty .empty

/-- The usages that a consistent library has stored are those of bodies. -/
lemma Library.Consistent.built_totalUsage {lib : Library} (hlib : lib.Consistent) :
    lib.totalUsage.Built fun _ => True := by
  have hstored : ∀ u ∈ lib.usages.entries.map Prod.snd, u.Built fun _ => True := by
    refine List.forall_mem_map.2 fun entry hentry => ?_
    have husage : lib.usage? entry.1 = some entry.2 :=
      (KeyMap.findIn_eq_some_iff entry.1 entry.2 lib.usages.nodup_keys).2 hentry
    obtain ⟨body, -, heq⟩ := hlib.usage_eq entry.1 entry.2 husage
    rw [heq]
    exact body.built_usage
  refine List.foldlRecOn (lib.usages.entries.map Prod.snd) _ .empty fun total htotal u hu => ?_
  exact htotal.merge (hstored u hu) fun _ _ => trivial

/-- No record names a member without its owner. In every record that is built by counting references
and by merging and choosing between such records, the declaring type of a method or field that has a
count has one, and so has the assembly of a type. If no sum of counts reaches `2 ^ 31`, the count of
the owner is at least as definite, and so it is in any case if the counts are unbounded. The usage of
a method body is such a record, and so is the total usage of a library after any calls. -/
theorem owner_counted_of_built :
    (∀ u : Usage Int32, u.Built (fun _ => True) → ∀ k owner : Entity, k.owner? = some owner →
      u.Has k → u.Has owner) ∧
    (∀ u : Usage Int32, u.Built (· < 2 ^ 31) → ∀ (k owner : Entity) (count : Int32),
      k.owner? = some owner → u.count? k = some count →
      ∃ ownerCount, u.count? owner = some ownerCount ∧
        Tally.level (some count) ≤ Tally.level (some ownerCount)) ∧
    (∀ u : Usage Int, u.Built (fun _ => True) → ∀ (k owner : Entity) (count : Int),
      k.owner? = some owner → u.count? k = some count →
      ∃ ownerCount, u.count? owner = some ownerCount ∧
        Tally.level (some count) ≤ Tally.level (some ownerCount)) ∧
    (∀ body : MethodBody, body.usage.Built fun _ => True) ∧
    ∀ (config : Config) (calls : List Library.Call) (lib : Library),
      Library.Outcomes { config } calls lib → lib.totalUsage.Built fun _ => True :=
  ⟨fun _ hu _ _ => hu.has_owner, fun _ hu _ _ _ => hu.exists_owner_count,
    fun _ hu _ _ _ => hu.exists_owner_count, MethodBody.built_usage,
    fun config _ _ hlib => (hlib.consistent (Library.consistent_empty config)).built_totalUsage⟩

/-- A type of the assembly `lib`. -/
def libType (name : String) : TypeRef :=
  ⟨"lib", name, false⟩

/-- As many references to a type as can be counted. -/
def fullRecord : Usage Int32 :=
  Usage.empty.refer Int32.maxValue true (.type (libType "Cache"))

/-- One reference more, to another type of the assembly. -/
def overfullRecord : Usage Int32 :=
  fullRecord.refer 1 true (.type (libType "Log"))

/-- The record can be built, with counts of any size. -/
lemma built_overfullRecord : overfullRecord.Built fun _ => True :=
  .refer (.refer .empty (by decide) fun _ _ _ => trivial) (by decide) fun _ _ _ => trivial

/-- The record can be built with small counts. -/
lemma built_fullRecord : fullRecord.Built (· < 2 ^ 31) :=
  .refer .empty (by decide) fun _ => by decide +kernel

/-- The type and its assembly have the largest count that there is. With one reference more, the
assembly still has one. -/
theorem owner_counted_of_built_fullRecord :
    fullRecord.Built (· < 2 ^ 31) ∧
      fullRecord.count? (.type (libType "Cache")) = some Int32.maxValue ∧
      (∃ count, fullRecord.count? (.assembly "lib") = some count ∧
        Tally.level (some Int32.maxValue) ≤ Tally.level (some count)) ∧
      overfullRecord.Has (.type (libType "Log")) ∧ overfullRecord.Has (.assembly "lib") ∧
      Library.simplifiedCounter.totalUsage.Built fun _ => True := by
  obtain ⟨hhas, hcounted, -, -, hlibrary⟩ := owner_counted_of_built
  have hcache : fullRecord.count? (.type (libType "Cache")) = some Int32.maxValue := by decide +kernel
  have hlog : overfullRecord.Has (.type (libType "Log")) := by
    rw [Usage.Has]
    decide +kernel
  exact ⟨built_fullRecord, hcache, hcounted _ built_fullRecord _ _ _ rfl hcache, hlog,
    hhas _ built_overfullRecord _ _ rfl hlog,
    hlibrary {} _ _ (.cons (.add tickCallee) (.cons (.add tickCaller)
      (.cons (Library.outcome_simplifyInOrder (by decide +kernel)) (.nil _))))⟩

/-- An owner may be counted less definitely than what it owns, where a sum has not fitted. -/
theorem not_forall_owner_counted :
    ¬ ∀ u : Usage Int32, u.Built (fun _ => True) → ∀ (k owner : Entity) (count : Int32),
      k.owner? = some owner → u.count? k = some count →
      ∃ ownerCount, u.count? owner = some ownerCount ∧
        Tally.level (some count) ≤ Tally.level (some ownerCount) := by
  intro h
  have hlog : overfullRecord.count? (.type (libType "Log")) = some 1 := by decide +kernel
  have hlib : overfullRecord.count? (.assembly "lib") = some Int32.minValue := by decide +kernel
  obtain ⟨count, hcount, hlevel⟩ := h _ built_overfullRecord _ _ _ rfl hlog
  rw [show (Entity.assembly (libType "Log").assembly) = .assembly "lib" from rfl, hlib] at hcount
  obtain rfl := Option.some.inj hcount
  exact absurd hlevel (by decide)

end Inliner
