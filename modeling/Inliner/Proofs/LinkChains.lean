import Inliner.Arena
import Mathlib.Data.List.Perm.Subperm
import Mathlib.Logic.Relation

/-!
# Chains of links between logic variables

Every variable of an arena leads along links to a representative. `Chain cells n v r` says that this
takes `n` links from `v` to `r`. There is at most one such chain (`Chain.unique`), and it is shorter
than the number of variables, since the variables on it are all different (`Chain.lt_length`). So
the bound on the number of links in `chase` never cuts a chain off, and no link leads back to where it
came from (`Rooted.acyclic`).

What an operation does to the classes is said by what it does to the ends of the chains. Shortening a
chain and storing a value at a representative keep all ends. Linking a representative to another one
redirects the chains that end there (`Leads.set_link`).
-/

namespace Inliner

namespace Arena

variable {α : Type} {cells cells' : List (Binding α)} {n m u v w r s t : Nat}

/-! ## Chains -/

/-- The variable `v` is linked to `w`. -/
def LinksTo (cells : List (Binding α)) (v w : Nat) : Prop :=
  cells[v]? = some (.link w)

/-- The variable is issued, and it is no link. -/
def IsRoot (cells : List (Binding α)) (v : Nat) : Prop :=
  ∃ b, cells[v]? = some b ∧ ∀ w, b ≠ .link w

/-- From `v`, `n` links lead to `r`, which is no link. -/
inductive Chain (cells : List (Binding α)) : Nat → Nat → Nat → Prop
  | root {v : Nat} (h : IsRoot cells v) : Chain cells 0 v v
  | link {n v w r : Nat} (h : LinksTo cells v w) (hw : Chain cells n w r) : Chain cells (n + 1) v r

/-- Only a cell of the arena is a link. -/
lemma LinksTo.lt_length (h : LinksTo cells v w) : v < cells.length :=
  (List.getElem?_eq_some_iff.1 h).1

/-- Only a cell of the arena is a root. -/
lemma IsRoot.lt_length (h : IsRoot cells v) : v < cells.length := by
  obtain ⟨b, hb, -⟩ := h
  exact (List.getElem?_eq_some_iff.1 hb).1

/-- A root is no link. -/
lemma IsRoot.not_linksTo (h : IsRoot cells v) : ¬ LinksTo cells v w := by
  obtain ⟨b, hb, hlink⟩ := h
  intro heq
  exact hlink w (Option.some.inj (hb.symm.trans heq))

/-- A representative stays one while its own state is not touched. -/
lemma IsRoot.congr (h : IsRoot cells v) (heq : cells'[v]? = cells[v]?) : IsRoot cells' v := by
  obtain ⟨b, hb, hlink⟩ := h
  exact ⟨b, heq.trans hb, hlink⟩

namespace Chain

/-- A chain ends at a representative. -/
lemma isRoot (h : Chain cells n v r) : IsRoot cells r := by
  induction h with
  | root h => exact h
  | link _ _ ih => exact ih

/-- A chain starts within the arena. -/
lemma lt (h : Chain cells n v r) : v < cells.length := by
  cases h with
  | root h => exact h.lt_length
  | link h _ => exact h.lt_length

/-- A variable has one chain only. -/
lemma unique (h : Chain cells n v r) (h' : Chain cells m v s) : n = m ∧ r = s := by
  induction h generalizing m with
  | root h =>
    cases h' with
    | root _ => exact ⟨rfl, rfl⟩
    | link hlink _ => exact absurd hlink h.not_linksTo
  | link hlink _ ih =>
    cases h' with
    | root h => exact absurd hlink h.not_linksTo
    | link hlink' hw =>
      obtain rfl : _ = _ := Binding.link.inj (Option.some.inj (hlink.symm.trans hlink'))
      obtain ⟨rfl, rfl⟩ := ih hw
      exact ⟨rfl, rfl⟩

/-- The variables on a chain are all different, as they have different distances from its end. -/
lemma exists_path (h : Chain cells n v r) :
    ∃ path : List Nat, path.Nodup ∧ path.length = n + 1 ∧
      ∀ u ∈ path, ∃ m ≤ n, Chain cells m u r := by
  induction h with
  | @root v h => exact ⟨[v], by simp, rfl, by simpa using .root h⟩
  | @link n v w r hlink hw ih =>
    obtain ⟨path, hnodup, hlength, hpath⟩ := ih
    have hv : Chain cells (n + 1) v r := .link hlink hw
    refine ⟨v :: path, List.nodup_cons.2 ⟨fun hmem => ?_, hnodup⟩, by simp [hlength], ?_⟩
    · obtain ⟨m, hm, hchain⟩ := hpath v hmem
      have := (hchain.unique hv).1
      omega
    · intro u hu
      rcases List.mem_cons.1 hu with rfl | hu
      · exact ⟨n + 1, Nat.le_refl _, hv⟩
      · obtain ⟨m, hm, hchain⟩ := hpath u hu
        exact ⟨m, by omega, hchain⟩

/-- A chain is shorter than the number of variables. -/
lemma lt_length (h : Chain cells n v r) : n < cells.length := by
  obtain ⟨path, hnodup, hlength, hpath⟩ := h.exists_path
  have hsubset : path ⊆ List.range cells.length := by
    intro u hu
    obtain ⟨m, -, hchain⟩ := hpath u hu
    exact List.mem_range.2 hchain.lt
  have := (List.subperm_of_subset hnodup hsubset).length_le
  rw [hlength, List.length_range] at this
  omega

/-- Following enough links leads to the end of the chain. -/
lemma chase_eq (h : Chain cells n v r) (hm : n ≤ m) : chase cells m v = r := by
  induction h generalizing m with
  | root h =>
    obtain ⟨b, hb, hlink⟩ := h
    cases m with
    | zero => rfl
    | succ m =>
      cases b with
      | link w => exact absurd rfl (hlink w)
      | _ => simp [chase, hb]
  | @link n v w r hlink _ ih =>
    obtain ⟨m, rfl⟩ : ∃ k, m = k + 1 := ⟨m - 1, by omega⟩
    rw [chase, show cells[v]? = some (.link w) from hlink]
    exact ih (by omega)

/-- The links of a chain, one after the other. -/
lemma reflTransGen (h : Chain cells n v r) : Relation.ReflTransGen (LinksTo cells) v r := by
  induction h with
  | root _ => exact .refl
  | link hlink _ ih => exact .head hlink ih

/-- A path of links that ends on a chain is part of a longer one. -/
lemma exists_of_transGen (hpath : Relation.TransGen (LinksTo cells) v w)
    (h : Chain cells n w r) : ∃ m, n < m ∧ Chain cells m v r := by
  induction hpath using Relation.TransGen.head_induction_on with
  | single hlink => exact ⟨n + 1, by omega, .link hlink h⟩
  | head hlink _ ih =>
    obtain ⟨m, hm, hchain⟩ := ih
    exact ⟨m + 1, by omega, .link hlink hchain⟩

end Chain

/-! ## The ends of chains -/

/-- From `v` the links lead to `r`. -/
def Leads (cells : List (Binding α)) (v r : Nat) : Prop :=
  ∃ n, Chain cells n v r

/-- Every variable issued leads to a representative. -/
def Rooted (cells : List (Binding α)) : Prop :=
  ∀ v < cells.length, ∃ r, Leads cells v r

namespace Leads

/-- A root leads to itself. -/
lemma root (h : IsRoot cells v) : Leads cells v v :=
  ⟨0, .root h⟩

/-- A link leads where its target does. -/
lemma link (h : LinksTo cells v w) : Leads cells w r → Leads cells v r := by
  rintro ⟨n, hn⟩
  exact ⟨n + 1, .link h hn⟩

/-- Links lead to roots. -/
lemma isRoot (h : Leads cells v r) : IsRoot cells r := by
  obtain ⟨n, hn⟩ := h
  exact hn.isRoot

/-- There is one root at most. -/
lemma unique (h : Leads cells v r) (h' : Leads cells v s) : r = s := by
  obtain ⟨n, hn⟩ := h
  obtain ⟨m, hm⟩ := h'
  exact (hn.unique hm).2

/-- The root is reached by following links. -/
lemma reflTransGen (h : Leads cells v r) : Relation.ReflTransGen (LinksTo cells) v r := by
  obtain ⟨n, hn⟩ := h
  exact hn.reflTransGen

/-- Following links finds the root. -/
lemma chase_eq (h : Leads cells v r) : chase cells cells.length v = r := by
  obtain ⟨n, hn⟩ := h
  exact hn.chase_eq (Nat.le_of_lt hn.lt_length)

end Leads

/-- No variable reaches itself along links. -/
lemma Rooted.acyclic (h : Rooted cells) (v : Nat) : ¬ Relation.TransGen (LinksTo cells) v v := by
  intro hpath
  obtain ⟨w, hlink, -⟩ := Relation.TransGen.head'_iff.1 hpath
  obtain ⟨r, n, hn⟩ := h v hlink.lt_length
  obtain ⟨m, hm, hchain⟩ := hn.exists_of_transGen hpath
  have := (hn.unique hchain).1
  omega

/-! ## Changing one variable -/

/-- A representative that is given another state, but no link, keeps all ends. -/
lemma Leads.set_root {b : Binding α} (hr : IsRoot cells r) (hb : ∀ w, b ≠ .link w)
    (h : Leads cells v s) : Leads (cells.set r b) v s := by
  have hself : IsRoot (cells.set r b) r :=
    ⟨b, List.getElem?_set_self hr.lt_length, hb⟩
  obtain ⟨n, hn⟩ := h
  induction hn with
  | @root v hv =>
    by_cases hvr : r = v
    · exact hvr ▸ .root hself
    · exact .root (hv.congr (List.getElem?_set_ne hvr))
  | link hlink _ ih =>
    refine .link ((List.getElem?_set_ne ?_).trans hlink) ih
    rintro rfl
    exact hr.not_linksTo hlink

/-- A representative `r` that is linked to another one, `s`, takes the chains that end at `r` along. -/
lemma Leads.set_link (hr : IsRoot cells r) (hs : IsRoot cells s) (hrs : r ≠ s)
    (h : Leads cells v t) : Leads (cells.set r (.link s)) v (if t = r then s else t) := by
  have hs' : IsRoot (cells.set r (.link s)) s := hs.congr (List.getElem?_set_ne hrs)
  obtain ⟨n, hn⟩ := h
  induction hn with
  | @root v hv =>
    by_cases hvr : v = r
    · subst hvr
      rw [if_pos rfl]
      exact .link (List.getElem?_set_self hv.lt_length) (.root hs')
    · rw [if_neg hvr]
      exact .root (hv.congr (List.getElem?_set_ne (Ne.symm hvr)))
  | link hlink _ ih =>
    refine .link ((List.getElem?_set_ne ?_).trans hlink) ih
    rintro rfl
    exact hr.not_linksTo hlink

/-- A link may be replaced by one that leads to the end of the chain at once. -/
lemma Leads.shorten (hlink : LinksTo cells v w) (hv : Leads cells v r) (h : Leads cells u t) :
    Leads (cells.set v (.link r)) u t := by
  have hkeep : ∀ {u}, IsRoot cells u → IsRoot (cells.set v (.link r)) u := by
    intro u hu
    refine hu.congr (List.getElem?_set_ne ?_)
    rintro rfl
    exact hu.not_linksTo hlink
  have hself : Leads (cells.set v (.link r)) v r :=
    .link (List.getElem?_set_self hlink.lt_length) (.root (hkeep hv.isRoot))
  obtain ⟨n, hn⟩ := h
  induction hn with
  | root hu => exact .root (hkeep hu)
  | @link n u x t hlink' ht ih =>
    by_cases hvu : v = u
    · subst hvu
      rw [Leads.unique (.link hlink' ⟨n, ht⟩) hv]
      exact hself
    · exact .link ((List.getElem?_set_ne hvu).trans hlink') ih

/-- Issuing a variable keeps all ends. -/
lemma Leads.append (more : List (Binding α)) (h : Leads cells v r) :
    Leads (cells ++ more) v r := by
  obtain ⟨n, hn⟩ := h
  induction hn with
  | root hv => exact .root (hv.congr (List.getElem?_append_left hv.lt_length))
  | link hlink _ ih => exact .link ((List.getElem?_append_left hlink.lt_length).trans hlink) ih

/-! ## Compression of a chain -/

/-- The same ends of chains, with the same states there. -/
structure Keeps (cells cells' : List (Binding α)) : Prop where
  length_eq : cells'.length = cells.length
  leads : ∀ {v r}, Leads cells v r → Leads cells' v r
  getElem?_eq : ∀ {r}, IsRoot cells r → cells'[r]? = cells[r]?

/-- Nothing is changed. -/
lemma Keeps.refl (cells : List (Binding α)) : Keeps cells cells :=
  ⟨rfl, id, fun _ => rfl⟩

/-- One change after the other. -/
lemma Keeps.trans {cells'' : List (Binding α)} (h : Keeps cells cells') (h' : Keeps cells' cells'') :
    Keeps cells cells'' where
  length_eq := h'.length_eq.trans h.length_eq
  leads hv := h'.leads (h.leads hv)
  getElem?_eq hr := (h'.getElem?_eq (hr.congr (h.getElem?_eq hr))).trans (h.getElem?_eq hr)

/-- Compression only replaces links on the chain by shorter ways to its end. -/
lemma keeps_compress (h : Leads cells v r) (n : Nat) : Keeps cells (compress r n v cells) := by
  induction n generalizing cells v with
  | zero => exact .refl cells
  | succ n ih =>
    rw [compress]
    split
    case h_1 next hnext =>
      split
      · exact .refl cells
      · have hstep : Keeps cells (cells.set v (.link r)) := by
          refine ⟨List.length_set, .shorten hnext h, fun hr => List.getElem?_set_ne ?_⟩
          rintro rfl
          exact hr.not_linksTo hnext
        have hlead : Leads cells next r := by
          obtain ⟨n, hn⟩ := h
          cases hn with
          | root hroot => exact absurd hnext hroot.not_linksTo
          | link hlink hw =>
            obtain rfl : _ = next := Binding.link.inj (Option.some.inj (hlink.symm.trans hnext))
            exact ⟨_, hw⟩
        exact hstep.trans (ih (hstep.leads hlead))
    · exact .refl cells

end Arena

end Inliner
