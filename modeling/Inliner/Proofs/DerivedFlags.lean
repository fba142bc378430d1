import Inliner.Proofs.ReadFlags

/-!
# Flags and usage records

The flags of the variables of a body and its usage record are derived from the statements by two
walks. One lists the uses of variables, the other counts references and treats the arms of branches
as alternatives. Both see the same variables: the uses are those of the mentioned entities that are
variables (`Stmt.blockUses_eq`), and for exactly these there are counts
(`Stmt.has_blockUsage_of_isVariable`). The flags of a declared variable can therefore be read off the
record.
-/

namespace Inliner

/-! ## Marking uses -/

/-- The flags of the variable `id` after it was used. -/
def Flags.afterUses (id : VarId) (uses : List VarUse) (flags : Flags) : Flags :=
  uses.foldl (fun f use => if id = use.1 then f.union use.2 else f) flags

/-- The first use comes first. -/
lemma Flags.afterUses_cons (id : VarId) (use : VarUse) (uses : List VarUse) (flags : Flags) :
    flags.afterUses id (use :: uses) =
      (if id = use.1 then flags.union use.2 else flags).afterUses id uses :=
  rfl

/-- Reading and pointing raise one flag each, and mentioning anything else raises none. -/
lemma Flags.afterUses_filterMap (id : VarId) (rs : List Entity) (flags : Flags) :
    flags.afterUses id (rs.filterMap Entity.use?) =
      { flags with
        read := flags.read || decide (Entity.read id ∈ rs)
        addressTaken := flags.addressTaken || decide (Entity.pointer id ∈ rs) } := by
  induction rs generalizing flags with
  | nil => simp [afterUses]
  | cons r rs ih =>
    cases r with
    | read id' =>
      have huse : Entity.use? (.read id') = some (id', .ofRead) := rfl
      rw [List.filterMap_cons_some huse, afterUses_cons, ih]
      by_cases hid : id = id' <;> simp [hid, union, ofRead]
    | pointer id' =>
      have huse : Entity.use? (.pointer id') = some (id', .ofAddress) := rfl
      rw [List.filterMap_cons_some huse, afterUses_cons, ih]
      by_cases hid : id = id' <;> simp [hid, union, ofAddress]
    | _ =>
      rw [List.filterMap_cons_none rfl, ih]
      simp

/-- Uses of other variables can be left out. -/
lemma Flags.afterUses_filter {id : VarId} {keep : VarUse → Bool}
    (hkeep : ∀ use, use.1 = id → keep use = true) (uses : List VarUse) (flags : Flags) :
    flags.afterUses id (uses.filter keep) = flags.afterUses id uses := by
  induction uses generalizing flags with
  | nil => rfl
  | cons use uses ih =>
    rw [afterUses_cons, ← ih]
    by_cases huse : keep use = true
    · rw [List.filter_cons_of_pos huse, afterUses_cons]
    · have hne : id ≠ use.1 := fun hid => huse (hkeep use hid.symm)
      rw [List.filter_cons_of_neg huse, if_neg hne]

namespace VarTable

/-- Tables with the same declarations are equal. -/
lemma ext_get? {t t' : VarTable} (h : ∀ id, t.get? id = t'.get? id) : t = t' :=
  VarTable.ext (List.ext_getElem? fun i => h ⟨i⟩)

/-- The first use is marked first. -/
lemma markUses_cons (t : VarTable) (use : VarUse) (uses : List VarUse) :
    t.markUses (use :: uses) = ((t.mark use.1 use.2).toOption.getD t).markUses uses :=
  rfl

/-- Marking uses changes the flags of variables and nothing else. -/
lemma get?_markUses (t : VarTable) (uses : List VarUse) (id : VarId) :
    (t.markUses uses).get? id =
      (t.get? id).map fun v => { v with flags := v.flags.afterUses id uses } := by
  induction uses generalizing t with
  | nil => exact Option.map_id'.symm
  | cons use uses ih =>
    rw [markUses_cons, ih, get?_mark, Option.map_map]
    refine congrArg (fun f => Option.map f (t.get? id)) (funext fun v => ?_)
    by_cases hid : id = use.1 <;> simp [Flags.afterUses_cons, hid]

/-- Uses of variables that are not declared can be left out. -/
lemma markUses_filter {t : VarTable} {keep : VarUse → Bool}
    (hkeep : ∀ use v, t.get? use.1 = some v → keep use = true) (uses : List VarUse) :
    t.markUses (uses.filter keep) = t.markUses uses := by
  refine ext_get? fun id => ?_
  rw [get?_markUses, get?_markUses]
  cases hv : t.get? id with
  | none => rfl
  | some v =>
    have hid : ∀ use : VarUse, use.1 = id → keep use = true := by
      rintro use rfl
      exact hkeep use v hv
    rw [Option.map_some, Option.map_some, Flags.afterUses_filter hid]

end VarTable

/-! ## Declarations -/

/-- A parameter or local to be declared. -/
structure Declaration where
  storage : Storage
  name : String
  type : TypeRef

namespace VarTable

/-- Declares a variable, with no flag raised. -/
def declare (t : VarTable) (d : Declaration) : VarTable :=
  match d.storage with
  | .argument => t.declareArgument d.name d.type
  | .localVar => t.declareLocal d.name d.type {}

/-- The table of the listed declarations. -/
def ofDeclarations (decls : List Declaration) : VarTable :=
  decls.foldl declare .empty

/-- A declared variable comes last, without flags. -/
lemma vars_declare (t : VarTable) (d : Declaration) :
    (t.declare d).vars = t.vars ++ [⟨d.name, d.type, d.storage, {}⟩] := by
  obtain ⟨storage, name, type⟩ := d
  cases storage <;> rfl

/-- Parameters and locals are numbered in the order of their declarations. -/
lemma vars_ofDeclarations (decls : List Declaration) :
    (ofDeclarations decls).vars = decls.map fun d => ⟨d.name, d.type, d.storage, {}⟩ := by
  have hfold : ∀ t : VarTable, (decls.foldl declare t).vars =
      t.vars ++ decls.map fun d => ⟨d.name, d.type, d.storage, {}⟩ := by
    induction decls with
    | nil => exact fun t => (List.append_nil _).symm
    | cons d decls ih => exact fun t => by simp [ih, vars_declare]
  exact hfold .empty

/-- Variables are numbered in the order of their declarations. -/
lemma get?_ofDeclarations (decls : List Declaration) (id : VarId) :
    (ofDeclarations decls).get? id =
      decls[id.index]?.map fun d => ⟨d.name, d.type, d.storage, {}⟩ := by
  rw [get?, vars_ofDeclarations, List.getElem?_map]

end VarTable

/-! ## Counts of variables -/

/-- A record has a count for each variable that is read. -/
lemma Stmt.contains_reads_blockUsage (block : List Stmt) (id : VarId) :
    (Stmt.blockUsage block : Usage Int32).reads.contains id =
      decide (Entity.read id ∈ Stmt.blockMentions block) := by
  rw [Bool.eq_iff_iff, decide_eq_true_iff]
  exact Stmt.has_blockUsage_of_isVariable block (k := .read id) rfl

/-- It has one for each variable that is pointed at. -/
lemma Stmt.contains_pointers_blockUsage (block : List Stmt) (id : VarId) :
    (Stmt.blockUsage block : Usage Int32).pointers.contains id =
      decide (Entity.pointer id ∈ Stmt.blockMentions block) := by
  rw [Bool.eq_iff_iff, decide_eq_true_iff]
  exact Stmt.has_blockUsage_of_isVariable block (k := .pointer id) rfl

/-- The flags of a body that was built say the same about its variables as its usage record. Each
declared variable is flagged as read exactly if there is a count of reads of it, certain or
possible, and as pointed at exactly if there is a count of pointers to it; no other flag is raised,
and no other variable is there. Uses of variables that are not declared might as well be left
out. -/
theorem MethodBody.flags_eq_usage_of_build (method : MethodRef) (isImport : Bool)
    (decls : List Declaration) (stmts : List Stmt) :
    let body := MethodBody.build method isImport (.ofDeclarations decls) stmts
    (∀ id : VarId, body.vars.get? id = decls[id.index]?.map fun d =>
      { name := d.name
        type := d.type
        storage := d.storage
        flags :=
          { read := body.usage.reads.contains id
            init := false
            readOnly := false
            addressTaken := body.usage.pointers.contains id } }) ∧
    body.vars = (VarTable.ofDeclarations decls).markUses
      ((Stmt.blockUses stmts).filter fun use => decide (use.1.index < decls.length)) := by
  intro body
  constructor
  · intro id
    have hvars : body.vars = (VarTable.ofDeclarations decls).markUses (Stmt.blockUses stmts) := rfl
    have husage : body.usage = Stmt.blockUsage stmts := rfl
    rw [hvars, husage, VarTable.get?_markUses, VarTable.get?_ofDeclarations, Option.map_map,
      Stmt.contains_reads_blockUsage, Stmt.contains_pointers_blockUsage]
    refine congrArg (fun f => Option.map f decls[id.index]?) (funext fun d => ?_)
    rw [Function.comp_apply, Stmt.blockUses_eq, Flags.afterUses_filterMap]
    rfl
  · refine (VarTable.markUses_filter (fun use v hv => ?_) (Stmt.blockUses stmts)).symm
    rw [VarTable.get?_ofDeclarations] at hv
    obtain ⟨d, hd, -⟩ := Option.map_eq_some_iff.1 hv
    exact decide_eq_true (List.getElem?_eq_some_iff.1 hd).1

end Inliner
