import Inliner.MethodBody
import Inliner.Proofs.UsageEntries

/-!
# What terms mention

The entities that a term refers to, one after the other, whatever the path is on which it does so
(`Expr.mentions`, `Stmt.blockMentions`). Counts and alternatives play no part here. What is left of
them in a usage record is that it has a count for everything that is mentioned and for the owners of
it, and for nothing else (`Stmt.has_blockUsage`). The uses of variables by which a table is flagged
are the variables that are mentioned (`Stmt.blockUses_eq`).
-/

namespace Inliner

mutual

/-- What is mentioned by reading a cell. -/
def Cell.mentions : Cell → List Entity
  | .var id => [.read id]
  | .field object member => object.mentions ++ [.field member]
  | .static member => [.field member]
  | .element array index => array.mentions ++ index.mentions
  | .deref pointer => pointer.mentions

/-- What an expression mentions. -/
def Expr.mentions : Expr → List Entity
  | .const _ => []
  | .read cell => cell.mentions
  | .addressOf (.var id) => [.pointer id]
  | .addressOf cell => cell.mentions
  | .unary _ operand => operand.mentions
  | .binary _ left right => left.mentions ++ right.mentions
  | .logical _ left right => left.mentions ++ right.mentions
  | .conditional cond onTrue onFalse => cond.mentions ++ (onTrue.mentions ++ onFalse.mentions)
  | .call method args => .method method :: Expr.allMentions args
  | .callOn method receiver args => .method method :: (receiver.mentions ++ Expr.allMentions args)
  | .construct method args => .method method :: Expr.allMentions args
  | .marshalOut value => value.mentions
  | .marshalIn value => value.mentions

/-- What several expressions mention. -/
def Expr.allMentions : List Expr → List Entity
  | [] => []
  | e :: rest => e.mentions ++ Expr.allMentions rest

end

/-- What is mentioned by storing into a cell. The variable that is stored into is not. -/
def Cell.targetMentions : Cell → List Entity
  | .var _ => []
  | cell => cell.mentions

mutual

/-- What a statement mentions. -/
def Stmt.mentions : Stmt → List Entity
  | .eval value => value.mentions
  | .assign target value => target.targetMentions ++ value.mentions
  | .ret none => []
  | .ret (some value) => value.mentions
  | .raise exception => exception.mentions
  | .branch cond onTrue onFalse =>
    cond.mentions ++ (Stmt.blockMentions onTrue ++ Stmt.blockMentions onFalse)

/-- What a block mentions. -/
def Stmt.blockMentions : List Stmt → List Entity
  | [] => []
  | s :: rest => s.mentions ++ Stmt.blockMentions rest

end

/-! ## Counts for what is mentioned -/

variable {ν : Type} [Count ν]

/-- Adding references by `f` makes sure that there are counts for the entities `rs` and their
owners, and adds no others. -/
def Registers (rs : List Entity) (f : Bool → Usage ν → Usage ν) : Prop :=
  ∀ always u k, (f always u).Has k ↔ u.Has k ∨ ∃ r ∈ rs, k ∈ r.withOwners

namespace Registers

variable {rs rs' : List Entity} {f g : Bool → Usage ν → Usage ν}

omit [Count ν] in
/-- Code that refers to nothing. -/
lemma nothing : Registers [] fun _ (u : Usage ν) => u := by
  intro always u k
  simp

/-- Code that consists of one reference. -/
lemma refer (r : Entity) : Registers [r] fun always (u : Usage ν) => u.refer 1 always r := by
  intro always u k
  simp [Usage.has_refer]

omit [Count ν] in
/-- One piece of code after another. -/
lemma inTurn (hf : Registers rs f) (hg : Registers rs' g) :
    Registers (rs ++ rs') fun always u => g always (f always u) := by
  intro always u k
  rw [hg, hf, or_assoc]
  simp [or_and_right, exists_or]

/-- One of two pieces of code. The alternatives are not told apart. -/
lemma either (hf : Registers rs f) (hg : Registers rs' g) :
    Registers (rs ++ rs') fun always u =>
      u.merge (Usage.either [f true .empty, g true .empty]) always := by
  intro always u k
  rw [Usage.has_merge, Usage.has_either]
  simp [hf true .empty k, hg true .empty k, or_and_right, exists_or]

end Registers

-- The cases follow the functions that add the references: each constructor makes the references of
-- its parts in turn or as alternatives of each other, and the lists of mentions are put together in
-- the same way.
mutual

/-- Reading a cell registers what it mentions. -/
lemma Cell.registers : ∀ c : Cell, Registers c.mentions (c.addUsage (ν := ν))
  | .var id => .refer (.read id)
  | .field object member => by
    have hobject := object.registers
    exact hobject.inTurn (.refer (.field member))
  | .static member => .refer (.field member)
  | .element array index => by
    have harray := array.registers
    have hindex := index.registers
    exact harray.inTurn hindex
  | .deref pointer => pointer.registers

/-- An expression registers what it mentions. -/
lemma Expr.registers : ∀ e : Expr, Registers e.mentions (e.addUsage (ν := ν))
  | .const _ => .nothing
  | .read cell => cell.registers
  | .addressOf (.var id) => .refer (.pointer id)
  | .addressOf (.field object member) => (Cell.field object member).registers
  | .addressOf (.static member) => (Cell.static member).registers
  | .addressOf (.element array index) => (Cell.element array index).registers
  | .addressOf (.deref pointer) => (Cell.deref pointer).registers
  | .unary _ operand => operand.registers
  | .binary _ left right => by
    have hleft := left.registers
    have hright := right.registers
    exact hleft.inTurn hright
  | .logical _ left right => by
    -- Not running the right operand mentions nothing.
    have hright := right.registers.either .nothing
    rw [List.append_nil] at hright
    exact left.registers.inTurn hright
  | .conditional cond onTrue onFalse => by
    have harms := onTrue.registers.either onFalse.registers
    exact cond.registers.inTurn harms
  | .call method args => by
    have hargs := Expr.registers_all args
    exact (Registers.refer (.method method)).inTurn hargs
  | .callOn method receiver args => by
    have hreceiver := receiver.registers
    have hargs := Expr.registers_all args
    exact (Registers.refer (.method method)).inTurn (hreceiver.inTurn hargs)
  | .construct method args => by
    have hargs := Expr.registers_all args
    exact (Registers.refer (.method method)).inTurn hargs
  | .marshalOut value => value.registers
  | .marshalIn value => value.registers

/-- Several expressions register what they mention. -/
lemma Expr.registers_all :
    ∀ es : List Expr, Registers (Expr.allMentions es) (Expr.addUsages (ν := ν) es)
  | [] => .nothing
  | e :: rest => by
    have hfirst := e.registers
    have hrest := Expr.registers_all rest
    exact hfirst.inTurn hrest

end

/-- Storing into a cell registers what it mentions. -/
lemma Cell.registers_target :
    ∀ c : Cell, Registers c.targetMentions (c.addTargetUsage (ν := ν))
  | .var _ => .nothing
  | .field object member => (Cell.field object member).registers
  | .static member => (Cell.static member).registers
  | .element array index => (Cell.element array index).registers
  | .deref pointer => (Cell.deref pointer).registers

mutual

/-- A statement registers what it mentions. -/
lemma Stmt.registers : ∀ s : Stmt, Registers s.mentions (s.addUsage (ν := ν))
  | .eval value => value.registers
  | .assign target value => by
    have htarget := target.registers_target (ν := ν)
    exact htarget.inTurn value.registers
  | .ret none => .nothing
  | .ret (some value) => value.registers
  | .raise exception => exception.registers
  | .branch cond onTrue onFalse => by
    have harms := (Stmt.registers_block onTrue).either (Stmt.registers_block onFalse)
    exact cond.registers.inTurn harms

/-- A block registers what it mentions. -/
lemma Stmt.registers_block :
    ∀ block : List Stmt, Registers (Stmt.blockMentions block) (Stmt.addBlockUsage (ν := ν) block)
  | [] => .nothing
  | s :: rest => by
    have hfirst := s.registers
    have hrest := Stmt.registers_block rest
    exact hfirst.inTurn hrest

end

/-- The usage of a block has counts for what the block mentions. -/
lemma Stmt.has_blockUsage (block : List Stmt) (k : Entity) :
    (Stmt.blockUsage block : Usage ν).Has k ↔
      ∃ r ∈ Stmt.blockMentions block, k ∈ r.withOwners := by
  rw [Stmt.blockUsage, Stmt.registers_block]
  simp

/-! ## Members and variables -/

/-- The entity is a variable, and not an assembly or a member of one. -/
def Entity.isVariable : Entity → Bool
  | .read _ => true
  | .pointer _ => true
  | _ => false

/-- A reference to an entity counts for it. -/
lemma Entity.mem_withOwners_self (r : Entity) : r ∈ r.withOwners := by
  cases r <;> exact List.mem_cons_self

/-- Nothing is an owner of a variable, and a variable is an owner of nothing. -/
lemma Entity.eq_of_mem_withOwners {r k : Entity} (hk : k ∈ r.withOwners)
    (hvariable : r.isVariable = true ∨ k.isVariable = true) : k = r := by
  cases r <;> cases k <;> simp_all [withOwners, isVariable]

/-- A block that is run reads or points at a variable if it mentions that. -/
lemma Stmt.has_blockUsage_of_isVariable (block : List Stmt) {k : Entity}
    (hk : k.isVariable = true) :
    (Stmt.blockUsage block : Usage ν).Has k ↔ k ∈ Stmt.blockMentions block := by
  rw [has_blockUsage]
  constructor
  · rintro ⟨r, hr, hmem⟩
    rwa [Entity.eq_of_mem_withOwners hmem (.inr hk)]
  · exact fun hmem => ⟨k, hmem, k.mem_withOwners_self⟩

/-! ## Uses are mentioned variables -/

/-- The use of a variable that consists in mentioning the entity. -/
def Entity.use? : Entity → Option VarUse
  | .read id => some (id, .ofRead)
  | .pointer id => some (id, .ofAddress)
  | _ => none

/-- A cell that is read is used itself, if it is a variable, and so are its operands. -/
lemma Cell.directUses_ofRead_append (c : Cell) :
    c.directUses .ofRead ++ c.targetMentions.filterMap Entity.use? =
      c.mentions.filterMap Entity.use? := by
  cases c <;> rfl

/-- Likewise for a cell that is pointed at. -/
lemma Cell.directUses_ofAddress_append (c : Cell) :
    c.directUses .ofAddress ++ c.targetMentions.filterMap Entity.use? =
      (Expr.addressOf c).mentions.filterMap Entity.use? := by
  cases c <;> rfl

mutual

/-- The operands of a cell use the variables that storing into it mentions. -/
lemma Cell.operandUses_eq : ∀ c : Cell, c.operandUses = c.targetMentions.filterMap Entity.use?
  | .var _ => rfl
  | .field object member => by
    have hmember : [Entity.field member].filterMap Entity.use? = [] := rfl
    rw [Cell.operandUses, Cell.targetMentions, Cell.mentions, List.filterMap_append, object.uses_eq,
      hmember, List.append_nil]
    exact fun _ => Cell.noConfusion
  | .static _ => rfl
  | .element array index => by
    rw [Cell.operandUses, Cell.targetMentions, Cell.mentions, List.filterMap_append, array.uses_eq,
      index.uses_eq]
    exact fun _ => Cell.noConfusion
  | .deref pointer => by
    rw [Cell.operandUses, Cell.targetMentions, Cell.mentions, pointer.uses_eq]
    exact fun _ => Cell.noConfusion

/-- The uses of variables in an expression are what it mentions of variables. -/
lemma Expr.uses_eq : ∀ e : Expr, e.uses = e.mentions.filterMap Entity.use?
  | .const _ => rfl
  | .read cell => by
    rw [Expr.uses, Expr.mentions, cell.operandUses_eq, cell.directUses_ofRead_append]
  | .addressOf cell => by
    rw [Expr.uses, cell.operandUses_eq, cell.directUses_ofAddress_append]
  | .unary _ operand => by rw [Expr.uses, Expr.mentions, operand.uses_eq]
  | .binary _ left right => by
    rw [Expr.uses, Expr.mentions, List.filterMap_append, left.uses_eq, right.uses_eq]
  | .logical _ left right => by
    rw [Expr.uses, Expr.mentions, List.filterMap_append, left.uses_eq, right.uses_eq]
  | .conditional cond onTrue onFalse => by
    rw [Expr.uses, Expr.mentions, List.filterMap_append, List.filterMap_append, cond.uses_eq,
      onTrue.uses_eq, onFalse.uses_eq, List.append_assoc]
  | .call _ args => Expr.allUses_eq args
  | .callOn _ receiver args => by
    have hmethod := congrArg₂ (· ++ ·) receiver.uses_eq (Expr.allUses_eq args)
    exact hmethod.trans List.filterMap_append.symm
  | .construct _ args => Expr.allUses_eq args
  | .marshalOut value => by rw [Expr.uses, Expr.mentions, value.uses_eq]
  | .marshalIn value => by rw [Expr.uses, Expr.mentions, value.uses_eq]

lemma Expr.allUses_eq :
    ∀ es : List Expr, Expr.allUses es = (Expr.allMentions es).filterMap Entity.use?
  | [] => rfl
  | e :: rest => by
    rw [Expr.allUses, Expr.allMentions, List.filterMap_append, e.uses_eq, Expr.allUses_eq rest]

end

mutual

/-- The uses of variables in a statement are what it mentions of variables. -/
lemma Stmt.uses_eq : ∀ s : Stmt, s.uses = s.mentions.filterMap Entity.use?
  | .eval value => value.uses_eq
  | .assign target value => by
    rw [Stmt.uses, Stmt.mentions, List.filterMap_append, target.operandUses_eq, value.uses_eq]
  | .ret none => rfl
  | .ret (some value) => value.uses_eq
  | .raise exception => exception.uses_eq
  | .branch cond onTrue onFalse => by
    rw [Stmt.uses, Stmt.mentions, List.filterMap_append, List.filterMap_append, cond.uses_eq,
      Stmt.blockUses_eq onTrue, Stmt.blockUses_eq onFalse, List.append_assoc]

/-- The uses of variables in a block are what it mentions of variables. -/
lemma Stmt.blockUses_eq :
    ∀ block : List Stmt, Stmt.blockUses block = (Stmt.blockMentions block).filterMap Entity.use?
  | [] => rfl
  | s :: rest => by
    rw [Stmt.blockUses, Stmt.blockMentions, List.filterMap_append, s.uses_eq,
      Stmt.blockUses_eq rest]

end

end Inliner
