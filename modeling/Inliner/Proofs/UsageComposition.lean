import Inliner.Library
import Inliner.Proofs.UsageEntries
import Mathlib.Algebra.Order.BigOperators.Group.List
import Mathlib.Algebra.Order.Ring.Nat
import Mathlib.Data.List.Induction

/-!
# Composing usage records

A proper record is determined by what it says of each entity: whether there are references to it, and
how many of them are certain. Merging a record that is always reached joins the former and adds up
the latter, so the proper records form a commutative monoid under it. A choice asks all alternatives
alike, and their order does not matter.

The references of a term are added to a record one by one, with the record of an arm merged in where
a branch is met. What holds of one reference, and is kept when one piece of code follows another and
when one of two is chosen, holds of all terms (`Compositional`). In this way every term is `Additive`:
it adds to each record what it adds to the empty one.

All this is so if the counts are unbounded. In words, sums are exact as long as they fit, and never
too large: a term makes no more references certain than with unbounded counts (`Usage.Within`).
-/

namespace Inliner

namespace Usage

open Inliner.Count

variable {ν : Type} [Count ν]

/-! ## Merging -/

section Unbounded

variable {u v : Usage Int}

/-- Unbounded counts stay proper when references are counted. -/
lemma Proper.refer_unbounded (hu : u.Proper) {delta : Int} {always : Bool}
    (hdelta : always = true → 0 < delta) (r : Entity) : (u.refer delta always r).Proper :=
  hu.refer hdelta fun _ _ _ => fits_int _

/-- Unbounded counts stay proper when others are merged in. -/
lemma Proper.merge_unbounded (hu : u.Proper) (v : Usage Int) (always : Bool) :
    (u.merge v always).Proper :=
  hu.merge fun _ _ => fits_int _

/-- Two records can be merged in both orders. -/
lemma merge_comm (hu : u.Proper) (hv : v.Proper) : u.merge v true = v.merge u true := by
  refine (hu.merge_unbounded v true).eq (hv.merge_unbounded u true) (fun k => ?_) fun k => ?_
  · rw [has_merge, has_merge, or_comm]
  · rw [definite_merge (fits_int _), definite_merge (fits_int _), Nat.add_comm]

/-- Merging two records one after the other is merging what they are together. -/
lemma merge_merge (hu : u.Proper) (v w : Usage Int) (always : Bool) :
    (u.merge v always).merge w always = u.merge (v.merge w true) always := by
  refine ((hu.merge_unbounded v always).merge_unbounded w always).eq
    (hu.merge_unbounded _ always) (fun k => ?_) fun k => ?_
  · simp only [has_merge, or_assoc]
  · cases always with
    | true => simp only [definite_merge (fits_int _), Nat.add_assoc]
    | false => simp only [definite_merge_possible]

/-- Merging the empty record changes nothing. -/
lemma merge_empty (u : Usage ν) (always : Bool) : u.merge .empty always = u := by
  refine eq_of_count? fun k => ?_
  rw [count?_merge, count?_empty]
  rfl

/-- Merging a record into the empty one gives that record. -/
lemma empty_merge (hu : u.Proper) : Usage.empty.merge u true = u := by
  rw [merge_comm proper_empty hu, merge_empty]

end Unbounded

/-- The order of the alternatives does not matter. -/
lemma either_perm {alternatives alternatives' : List (Usage ν)}
    (h : alternatives.Perm alternatives') : either alternatives = either alternatives' := by
  refine eq_of_count? fun k => ?_
  rw [count?_either, count?_either, Tally.choice_perm (h.map _)]

/-! ## Totals -/

/-- The last part of a total is merged in at the end. -/
lemma total_concat (us : List (Usage ν)) (u : Usage ν) :
    total (us ++ [u]) = (total us).merge u true :=
  List.foldl_append

/-- A total has counts for what one of the parts refers to. -/
lemma has_total (us : List (Usage ν)) (k : Entity) : (total us).Has k ↔ ∃ u ∈ us, u.Has k := by
  induction us using List.reverseRecOn with
  | nil => simp [total]
  | append_singleton us u ih => simp [total_concat, has_merge, ih, or_and_right, exists_or]

/-- A total makes certain what its parts do together, if the sum fits. -/
lemma definite_total {us : List (Usage ν)} {k : Entity}
    (hfits : Fits ν (us.map fun u => u.definite k).sum) :
    (total us).definite k = (us.map fun u => u.definite k).sum := by
  induction us using List.reverseRecOn with
  | nil => simp [total]
  | append_singleton us u ih =>
    rw [List.map_append, List.sum_append, List.map_singleton, List.sum_singleton] at hfits ⊢
    have hfirst := ih (fits_of_le (Nat.le_add_right _ _) hfits)
    rw [total_concat, definite_merge (hfirst ▸ hfits), hfirst]

/-- Totals are proper, if all sums fit. -/
lemma proper_total {us : List (Usage ν)}
    (hfits : ∀ k, Fits ν (us.map fun u => u.definite k).sum) : (total us).Proper := by
  induction us using List.reverseRecOn with
  | nil => exact proper_empty
  | append_singleton us u ih =>
    simp only [List.map_append, List.sum_append, List.map_singleton, List.sum_singleton] at hfits
    have hfirst := fun k => fits_of_le (Nat.le_add_right _ _) (hfits k)
    rw [total_concat]
    refine (ih hfirst).merge fun _ k => ?_
    rw [definite_total (hfirst k)]
    exact hfits k

/-- The order of the parts does not matter, whatever their counts are, if all sums fit. -/
lemma total_perm {us us' : List (Usage ν)} (h : us.Perm us')
    (hfits : ∀ k, Fits ν (us.map fun u => u.definite k).sum) : total us = total us' := by
  have hsum : ∀ k, (us.map fun u => u.definite k).sum = (us'.map fun u => u.definite k).sum :=
    fun k => (h.map _).sum_nat
  have hfits' : ∀ k, Fits ν (us'.map fun u => u.definite k).sum := fun k => hsum k ▸ hfits k
  refine (proper_total hfits).eq (proper_total hfits') (fun k => ?_) fun k => ?_
  · rw [has_total, has_total]
    simp only [h.mem_iff]
  · rw [definite_total (hfits k), definite_total (hfits' k), hsum]

end Usage

/-! ## Adding the references of a term -/

/-- A way to add references to records, whatever they are counted with. -/
abbrev Contribution : Type 1 :=
  ∀ (ν : Type) [Count ν], Bool → Usage ν → Usage ν

/-- A property of ways to add references that holds of each single reference, and that is kept where
one piece of code follows another and where one of two is chosen. -/
structure Compositional (P : Contribution → Prop) : Prop where
  nothing : P fun _ _ _ u => u
  refer : ∀ r : Entity, P fun _ _ always u => u.refer 1 always r
  inTurn : ∀ {f g : Contribution}, P f → P g → P fun ν _ always u => g ν always (f ν always u)
  either : ∀ {f g : Contribution}, P f → P g →
    P fun ν _ always u => u.merge (Usage.either [f ν true .empty, g ν true .empty]) always

namespace Compositional

variable {P : Contribution → Prop} (hP : Compositional P)

include hP

mutual

/-- Reading a cell has the property. -/
lemma cell : ∀ c : Cell, P fun _ _ => c.addUsage
  | .var id => hP.refer (.read id)
  | .field object member => (hP.inTurn (expr object) (hP.refer (.field member)) :)
  | .static member => hP.refer (.field member)
  | .element array index => (hP.inTurn (expr array) (expr index) :)
  | .deref pointer => expr pointer

/-- Every expression has the property. -/
lemma expr : ∀ e : Expr, P fun _ _ => e.addUsage
  | .const _ => hP.nothing
  | .read c => cell c
  | .addressOf (.var id) => hP.refer (.pointer id)
  | .addressOf (.field object member) => cell (.field object member)
  | .addressOf (.static member) => cell (.static member)
  | .addressOf (.element array index) => cell (.element array index)
  | .addressOf (.deref pointer) => cell (.deref pointer)
  | .unary _ operand => expr operand
  | .binary _ left right => (hP.inTurn (expr left) (expr right) :)
  | .logical _ left right => (hP.inTurn (expr left) (hP.either (expr right) hP.nothing) :)
  | .conditional cond onTrue onFalse =>
    (hP.inTurn (expr cond) (hP.either (expr onTrue) (expr onFalse)) :)
  | .call method args => (hP.inTurn (hP.refer (.method method)) (exprs args) :)
  | .callOn method receiver args =>
    (hP.inTurn (hP.refer (.method method)) (hP.inTurn (expr receiver) (exprs args)) :)
  | .construct method args => (hP.inTurn (hP.refer (.method method)) (exprs args) :)
  | .marshalOut value => expr value
  | .marshalIn value => expr value

/-- Several expressions, one after the other, have the property. -/
lemma exprs : ∀ es : List Expr, P fun _ _ => Expr.addUsages es
  | [] => hP.nothing
  | e :: rest => (hP.inTurn (expr e) (exprs rest) :)

end

/-- Storing into a cell has the property. -/
lemma target : ∀ c : Cell, P fun _ _ => c.addTargetUsage
  | .var _ => hP.nothing
  | .field object member => hP.cell (.field object member)
  | .static member => hP.cell (.static member)
  | .element array index => hP.cell (.element array index)
  | .deref pointer => hP.cell (.deref pointer)

mutual

/-- Every statement has the property. -/
lemma stmt : ∀ s : Stmt, P fun _ _ => s.addUsage
  | .eval value => hP.expr value
  | .assign target value => (hP.inTurn (hP.target target) (hP.expr value) :)
  | .ret none => hP.nothing
  | .ret (some value) => hP.expr value
  | .raise exception => hP.expr exception
  | .branch cond onTrue onFalse =>
    (hP.inTurn (hP.expr cond) (hP.either (block onTrue) (block onFalse)) :)

/-- Every block has the property. -/
lemma block : ∀ stmts : List Stmt, P fun _ _ => Stmt.addBlockUsage stmts
  | [] => hP.nothing
  | s :: rest => (hP.inTurn (stmt s) (block rest) :)

end

end Compositional

/-- Adding references by `f` is merging in what `f` adds to the empty record. -/
structure Additive (f : Bool → Usage Int → Usage Int) : Prop where
  proper : (f true .empty).Proper
  merges : ∀ {u : Usage Int}, u.Proper → ∀ always, f always u = u.merge (f true .empty) always

/-- A reference is merging in a record of this reference only. -/
lemma additive_refer (r : Entity) : Additive fun always u => u.refer 1 always r where
  proper := Usage.proper_empty.refer_unbounded (fun _ => Int.one_pos) r
  merges {u} hu always := by
    have hproper : (u.refer 1 always r).Proper := hu.refer_unbounded (fun _ => Int.one_pos) r
    refine hproper.eq (hu.merge_unbounded _ always) (fun k => ?_) fun k => ?_
    · simp [Usage.has_refer, Usage.has_merge]
    · cases always with
      | true =>
        rw [Usage.definite_merge (Count.fits_int _), Usage.definite_refer Int.one_pos (by simp),
          Usage.definite_refer Int.one_pos (by simp), Usage.definite_empty, Nat.zero_add]
      | false => rw [Usage.definite_refer_possible, Usage.definite_merge_possible]

/-- One after the other, additive ways to add references are additive. -/
lemma Additive.inTurn {f g : Bool → Usage Int → Usage Int} (hf : Additive f) (hg : Additive g) :
    Additive fun always u => g always (f always u) where
  proper := by
    rw [hg.merges hf.proper]
    exact hf.proper.merge_unbounded _ true
  merges {u} hu always := by
    have hfirst : (f always u).Proper := by
      rw [hf.merges hu]
      exact hu.merge_unbounded _ always
    calc g always (f always u)
      _ = (u.merge (f true .empty) always).merge (g true .empty) always := by
        rw [hg.merges hfirst, hf.merges hu]
      _ = u.merge ((f true .empty).merge (g true .empty) true) always :=
        Usage.merge_merge hu _ _ always
      _ = u.merge (g true (f true .empty)) always := by rw [hg.merges hf.proper]

/-- Choices are additive. -/
lemma additive_either (f g : Bool → Usage Int → Usage Int) :
    Additive fun always u => u.merge (Usage.either [f true .empty, g true .empty]) always where
  proper := Usage.proper_empty.merge_unbounded _ true
  merges _ always := by rw [Usage.empty_merge (Usage.proper_either _)]

/-- All terms are additive. -/
lemma compositional_additive : Compositional fun f => Additive (f Int) where
  nothing := ⟨Usage.proper_empty, fun _ always => (Usage.merge_empty _ always).symm⟩
  refer := additive_refer
  inTurn := .inTurn
  either {f g} _ _ := additive_either (f Int) (g Int)

/-! ## Words and unbounded integers -/

/-- The record makes no more references certain than the one with unbounded counts. -/
def Usage.Within {ν : Type} [Count ν] (u : Usage ν) (v : Usage Int) : Prop :=
  ∀ k, u.definite k ≤ v.definite k

namespace Usage.Within

variable {ν : Type} [Count ν] {u sub : Usage ν} {v sub' : Usage Int}

/-- A reference counts for less if the sum does not fit. -/
lemma refer (h : u.Within v) (always : Bool) (r : Entity) :
    (u.refer 1 always r).Within (v.refer 1 always r) := by
  intro k
  cases always with
  | true =>
    have hle := u.definite_refer_le Count.one_pos r k
    rw [definite_refer Count.one_pos fun _ => Count.fits_int _, Count.toInt_one]
    rw [Count.toInt_one] at hle
    exact hle.trans (Nat.add_le_add_right (h k) _)
  | false =>
    rw [definite_refer_possible, definite_refer_possible]
    exact h k

/-- A record that is merged in counts for less if the sum does not fit. -/
lemma merge (h : u.Within v) (hsub : sub.Within sub') (always : Bool) :
    (u.merge sub always).Within (v.merge sub' always) := by
  intro k
  cases always with
  | true =>
    rw [definite_merge (Count.fits_int _)]
    exact (definite_merge_le u sub k).trans (Nat.add_le_add (h k) (hsub k))
  | false =>
    rw [definite_merge_possible, definite_merge_possible]
    exact h k

/-- A choice makes less certain if the alternatives do. -/
lemma either (h : u.Within v) (hsub : sub.Within sub') :
    (Usage.either [u, sub]).Within (Usage.either [v, sub']) := by
  intro k
  have hleft := h k
  have hright := hsub k
  rw [definite_either, definite_either]
  omega

end Usage.Within

/-- Terms make no more references certain in words than in unbounded integers. -/
lemma compositional_within {ν : Type} [Count ν] :
    Compositional fun f => ∀ (always : Bool) (u : Usage ν) (v : Usage Int), u.Within v →
      (f ν always u).Within (f Int always v) where
  nothing _ _ _ h := h
  refer r always _ _ h := h.refer always r
  inTurn hf hg always u v h := hg always _ _ (hf always u v h)
  either hf hg always u v h := by
    have hempty : (Usage.empty : Usage ν).Within .empty := fun k => by simp
    exact h.merge ((hf true _ _ hempty).either (hg true _ _ hempty)) always

/-- A block makes no more references certain in words than in unbounded integers. -/
lemma Stmt.definite_blockUsage_le {ν : Type} [Count ν] (block : List Stmt) (k : Entity) :
    (Stmt.blockUsage block : Usage ν).definite k ≤ (Stmt.blockUsage block : Usage Int).definite k :=
  compositional_within.block block true .empty .empty (fun k => by simp) k

/-! ## The order of composition -/

/-- Usage records can be composed in any order, if the counts are unbounded. All operations lead from
proper records to proper ones. Merging what is always reached is commutative and associative, with the
empty record as its neutral element, so the total of several records does not depend on their order.
The order of alternatives does not matter either. And the references of a term are added to a proper
record by merging in the usage of the term on its own. A library counts with words, and the order of
its entries does not matter for its total usage if all sums are below `2 ^ 31`. -/
theorem usage_composes_in_any_order :
    (∀ u : Usage Int, u.Proper →
      (∀ (delta : Int) (always : Bool) (r : Entity), 1 ≤ delta →
        (u.refer delta always r).Proper) ∧
      ∀ (sub : Usage Int) (always : Bool), (u.merge sub always).Proper) ∧
    (∀ alternatives : List (Usage Int), (Usage.either alternatives).Proper) ∧
    (∀ u v : Usage Int, u.Proper → v.Proper → u.merge v true = v.merge u true) ∧
    (∀ u v w : Usage Int, u.Proper →
      (u.merge v true).merge w true = u.merge (v.merge w true) true) ∧
    (∀ u : Usage Int, u.merge .empty true = u ∧ (u.Proper → Usage.empty.merge u true = u)) ∧
    (∀ us us' : List (Usage Int), us.Perm us' → Usage.total us = Usage.total us') ∧
    (∀ (lib : Library) (entries : List (MethodRef × Usage Int32)),
      entries.Perm lib.usages.entries →
      (∀ k, (entries.map fun entry => entry.2.definite k).sum < 2 ^ 31) →
      Usage.total (entries.map Prod.snd) = lib.totalUsage) ∧
    (∀ alternatives alternatives' : List (Usage Int), alternatives.Perm alternatives' →
      Usage.either alternatives = Usage.either alternatives') ∧
    (∀ (e : Expr) (u : Usage Int) (always : Bool), u.Proper →
      e.addUsage always u = u.merge e.usage always) ∧
    ∀ (s : Stmt) (u : Usage Int) (always : Bool), u.Proper →
      s.addUsage always u = u.merge (s.addUsage true .empty) always := by
  refine ⟨fun u hu => ⟨fun delta always r hdelta => hu.refer_unbounded (fun _ => hdelta) r,
      hu.merge_unbounded⟩,
    Usage.proper_either, fun u v => Usage.merge_comm, fun u v w hu => Usage.merge_merge hu v w true,
    fun u => ⟨Usage.merge_empty u true, Usage.empty_merge⟩,
    fun us us' h => Usage.total_perm h fun _ => Count.fits_int _,
    fun lib entries hentries hsums => ?_, fun _ _ => Usage.either_perm,
    fun e u always hu => (compositional_additive.expr e).merges hu always,
    fun s u always hu => (compositional_additive.stmt s).merges hu always⟩
  refine Usage.total_perm (hentries.map _) fun k => ?_
  rw [List.map_map]
  exact hsums k

/-- A method of the type `Cache`. -/
def cacheMethod (name : String) : MethodRef :=
  ⟨⟨"lib", "Cache", false⟩, name, 0, true⟩

/-- Looks into the cache if the first variable is true. -/
def lookup : Stmt :=
  .branch (.readVar ⟨0⟩) [.eval (.call (cacheMethod "find") [])] []

/-- Puts the first variable into the cache. -/
def update : Expr :=
  .call (cacheMethod "put") [.readVar ⟨0⟩]

/-- Two methods, one of which looks into the cache and the other puts something there. -/
def cacheUsers : Library where
  config := {}
  usages := .ofList [(cacheMethod "reader", lookup.addUsage true .empty),
    (cacheMethod "writer", update.usage)]

/-- What is possible in one record and definite in the other is definite in both orders, and definite
counts add up. -/
theorem usage_composes_in_any_order_cache :
    (lookup.addUsage true .empty : Usage Int).Proper ∧ (update.usage : Usage Int).Proper ∧
      (lookup.addUsage true .empty).count? (.type (cacheMethod "find").declaring) =
        some (Tally.possible : Int) ∧
      (lookup.addUsage true update.usage).count? (.type (cacheMethod "find").declaring) =
        some (1 : Int) ∧
      (lookup.addUsage true update.usage).count? (.read ⟨0⟩) = some (2 : Int) ∧
      (lookup.addUsage true update.usage : Usage Int) =
        update.addUsage true (lookup.addUsage true .empty) ∧
      (lookup.addUsage false update.usage : Usage Int) =
        update.usage.merge (lookup.addUsage true .empty) false ∧
      (Usage.either [lookup.addUsage true .empty, update.usage] : Usage Int) =
        Usage.either [update.usage, lookup.addUsage true .empty] ∧
      ((update.usage : Usage Int).refer 2 false (.method (cacheMethod "find"))).Proper ∧
      Usage.total (cacheUsers.usages.entries.reverse.map Prod.snd) = cacheUsers.totalUsage := by
  have hlookup : (lookup.addUsage true .empty : Usage Int).Proper :=
    (compositional_additive.stmt lookup).proper
  have hupdate : (update.usage : Usage Int).Proper := (compositional_additive.expr update).proper
  obtain ⟨hproper, -, hcomm, -, -, -, htotal, hperm, hexpr, hstmt⟩ := usage_composes_in_any_order
  have hcounts : ∀ entry ∈ cacheUsers.usages.entries.reverse, ∀ count ∈ entry.2.counts,
      Count.toInt count ≤ ((1 : Nat) : Int) := by
    -- only the counts that are there are tested, not all words
    have hall : (cacheUsers.usages.entries.reverse.all fun entry => entry.2.counts.all fun count =>
        decide (Count.toInt count ≤ ((1 : Nat) : Int))) = true := by decide +kernel
    simpa only [List.all_eq_true, decide_eq_true_eq] using hall
  have hlength : cacheUsers.usages.entries.reverse.length = 2 := by decide +kernel
  have hsums : ∀ k, (cacheUsers.usages.entries.reverse.map fun entry =>
      entry.2.definite k).sum < 2 ^ 31 := by
    intro k
    refine (List.sum_le_card_nsmul _ 1 ?_).trans_lt ?_
    · exact List.forall_mem_map.2 fun entry hentry => Usage.definite_le (hcounts entry hentry) k
    · rw [List.length_map, hlength, two_nsmul]
      omega
  refine ⟨hlookup, hupdate, by decide +kernel, by decide +kernel, by decide +kernel, ?_,
    hstmt _ _ _ hupdate, hperm _ _ (List.Perm.swap _ _ _), (hproper _ hupdate).1 2 _ _ (by decide),
    htotal cacheUsers _ (List.reverse_perm _) hsums⟩
  rw [hstmt _ _ _ hupdate, hexpr _ _ _ hlookup, hcomm _ _ hupdate hlookup]

end Inliner
