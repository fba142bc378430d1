import Inliner.Proofs.MentionRules
import Inliner.Proofs.UndeclaredVariables

/-!
# Flags of the variables that are read

A body that was built has its variables flagged by what its statements do with them. Simplification
copies flags when it gives the variables of a callee new locals, but it does not look at the
statements again. This is enough as long as reads come from reads: an argument that replaces a
parameter was read where it was passed, a new local has the flags of the variable that it replaces.

There is one more source of reads. A pointer to a variable that is followed at once becomes a read
of the variable, and the variable is flagged as pointed at, but perhaps not as read. So after
simplification a variable that is read is flagged as read or as pointed at (`VarTable.Answers`). It
is flagged as read if no pointers to variables are taken, which is what the parameter `pointers` of
the statements here is about. All this needs that bodies use declared variables only, because the
name of an undeclared variable of a callee may be that of any variable of the caller.
-/

namespace Inliner

/-! ## Uses that flags answer for -/

/-- As far as reading and pointing go, the flags `g` are raised in `f`. -/
def Flags.Includes (f g : Flags) : Prop :=
  (g.read = true → f.read = true) ∧ (g.addressTaken = true → f.addressTaken = true)

namespace Flags

/-- Every flag that is raised is raised. -/
lemma Includes.refl (f : Flags) : f.Includes f :=
  ⟨id, id⟩

/-- Flags that are raised in two steps. -/
lemma Includes.trans {f g h : Flags} (hfg : f.Includes g) (hgh : g.Includes h) : f.Includes h :=
  ⟨hfg.1 ∘ hgh.1, hfg.2 ∘ hgh.2⟩

/-- Raising flags lowers none. -/
lemma union_includes_left (f g : Flags) : (f.union g).Includes f :=
  ⟨fun h => by simp [union, h], fun h => by simp [union, h]⟩

/-- Flags that are raised are raised afterwards. -/
lemma union_includes_right (f g : Flags) : (f.union g).Includes g :=
  ⟨fun h => by simp [union, h], fun h => by simp [union, h]⟩

end Flags

namespace VarTable

/-- The variable is declared, and its flags answer for the use: if it is pointed at, it is flagged
so, and if it is read, it is flagged as read or, where there are pointers to variables, as pointed
at. -/
def Answers (pointers : Bool) (t : VarTable) (use : VarUse) : Prop :=
  ∃ v, t.get? use.1 = some v ∧
    (use.2.read = true → v.flags.read = true ∨ pointers = true ∧ v.flags.addressTaken = true) ∧
    (use.2.addressTaken = true → pointers = true ∧ v.flags.addressTaken = true)

/-- The flags answer for all the uses. -/
def AnswersAll (pointers : Bool) (t : VarTable) (uses : List VarUse) : Prop :=
  ∀ use ∈ uses, t.Answers pointers use

variable {pointers : Bool} {t t' : VarTable} {uses : List VarUse} {id id' : VarId}

/-- A variable with the flags of another one can be used in its place. -/
lemma Answers.replace {v v' : Variable} {flags : Flags} (h : t.Answers pointers (id, flags))
    (hv : t.get? id = some v) (hv' : t'.get? id' = some v') (hflags : v'.flags.Includes v.flags) :
    t'.Answers pointers (id', flags) := by
  obtain ⟨w, hw, hread, haddress⟩ := h
  obtain rfl : v = w := Option.some.inj (hv.symm.trans hw)
  exact ⟨v', hv', fun huse => (hread huse).imp hflags.1 (And.imp_right hflags.2),
    fun huse => (haddress huse).imp_right hflags.2⟩

/-- Flags answer for a use also when locals are added. -/
lemma Answers.mono {use : VarUse} (h : t.Answers pointers use) (ht : t.ExtendedTo t') :
    t'.Answers pointers use := by
  obtain ⟨v, hv, hflags⟩ := h
  exact ⟨v, ht.get?_of_some hv, hflags⟩

/-- A variable that may be pointed at may be read through the pointer. -/
lemma Answers.read_of_address (h : t.Answers pointers (id, .ofAddress)) :
    t.Answers pointers (id, .ofRead) := by
  obtain ⟨v, hv, -, haddress⟩ := h
  exact ⟨v, hv, fun _ => .inr (haddress rfl), fun hflag => (by cases hflag)⟩

/-! ### Flags of bodies that were built -/

/-- Marking a use raises flags of the variable that is used, and leaves the others alone. -/
lemma get?_mark (t : VarTable) (use : VarUse) (id : VarId) :
    ((t.mark use.1 use.2).toOption.getD t).get? id =
      (t.get? id).map fun v =>
        if id = use.1 then { v with flags := v.flags.union use.2 } else v := by
  unfold mark update get
  cases hv : t.get? use.1 with
  | none =>
    by_cases hid : id = use.1
    · simp [Except.map, Except.toOption, hid, hv]
    · simp [Except.map, Except.toOption, hid]
  | some v =>
    have hlt := index_lt_of_get? hv
    simp only [Except.map, Except.toOption, Option.getD_some]
    unfold get? at hv ⊢
    by_cases hid : id = use.1
    · subst hid
      simp only [hv, if_true, Option.map_some]
      rw [List.getElem?_set_self hlt]
    · have hne : use.1.index ≠ id.index := fun h => hid (congrArg VarId.mk h.symm)
      simp [List.getElem?_set_ne hne, hid]

/-- After uses were marked, a variable has the flags that it had before and those of its uses. -/
lemma exists_of_get?_markUses {v : Variable} (hv : (t.markUses uses).get? id = some v) :
    ∃ v₀, t.get? id = some v₀ ∧ v.flags.Includes v₀.flags ∧
      ∀ use ∈ uses, use.1 = id → v.flags.Includes use.2 := by
  induction uses generalizing t with
  | nil => exact ⟨v, hv, .refl _, List.forall_mem_nil _⟩
  | cons use uses ih =>
    obtain ⟨v₁, hv₁, hflags, huses⟩ := ih hv
    rw [get?_mark] at hv₁
    obtain ⟨v₀, hv₀, rfl⟩ := Option.map_eq_some_iff.1 hv₁
    have hkept : v.flags.Includes v₀.flags := by
      refine hflags.trans ?_
      split
      · exact Flags.union_includes_left _ _
      · exact .refl _
    refine ⟨v₀, hv₀, hkept, List.forall_mem_cons.2 ⟨fun huse => ?_, huses⟩⟩
    rw [if_pos huse.symm] at hflags
    exact hflags.trans (Flags.union_includes_right _ _)

end VarTable

namespace MethodBody

/-- The variables are flagged by their uses in the statements. -/
def IsBuilt (b : MethodBody) : Prop :=
  ∃ vars, b = .build b.method b.isImport vars b.stmts

/-- The variables that are read or pointed at are declared. -/
def DeclaresUses (b : MethodBody) : Prop :=
  ∀ use ∈ Stmt.blockUses b.stmts, (b.vars.get? use.1).isSome = true

/-- No pointer to a variable is taken. -/
def TakesNoAddress (b : MethodBody) : Prop :=
  ∀ use ∈ Stmt.blockUses b.stmts, use.2.addressTaken = false

instance (b : MethodBody) : Decidable b.DeclaresUses :=
  inferInstanceAs (Decidable (∀ use ∈ Stmt.blockUses b.stmts, (b.vars.get? use.1).isSome = true))

instance (b : MethodBody) : Decidable b.TakesNoAddress :=
  inferInstanceAs (Decidable (∀ use ∈ Stmt.blockUses b.stmts, use.2.addressTaken = false))

/-- The flags of a body that was built answer for all the uses of declared variables. -/
lemma IsBuilt.answersAll {b : MethodBody} (hbuilt : b.IsBuilt) (hdeclares : b.DeclaresUses)
    {pointers : Bool} (hpointers : pointers = true ∨ b.TakesNoAddress) :
    b.vars.AnswersAll pointers (Stmt.blockUses b.stmts) := by
  intro use huse
  obtain ⟨vars, hb⟩ := hbuilt
  obtain ⟨v, hv⟩ := Option.isSome_iff_exists.1 (hdeclares use huse)
  have hvars : b.vars = vars.markUses (Stmt.blockUses b.stmts) := congrArg MethodBody.vars hb
  rw [hvars] at hv ⊢
  obtain ⟨v₀, -, -, huses⟩ := VarTable.exists_of_get?_markUses hv
  have hflags := huses use huse rfl
  refine ⟨v, hv, fun hread => .inl (hflags.1 hread), fun haddress => ⟨?_, hflags.2 haddress⟩⟩
  rcases hpointers with hpointers | hnone
  · exact hpointers
  · rw [hnone use huse] at haddress
    cases haddress

end MethodBody

/-! ## Simplification -/

section Answering

variable {pointers : Bool} {t : VarTable}

/-- The flags answer for the uses of all variables that are mentioned. -/
def answering (pointers : Bool) : MentionRule where
  allows t r := ∀ use, r.use? = some use → t.Answers pointers use
  mono ht h use huse := (h use huse).mono ht
  follow {t id} h := by
    rintro use ⟨⟩
    exact (h (id, .ofAddress) rfl).read_of_address

/-- The uses in a block are those of what its statements mention. -/
lemma answersAll_blockUses {stmts : List Stmt} :
    t.AnswersAll pointers (Stmt.blockUses stmts) ↔
      ∀ s ∈ stmts, ∀ r ∈ s.mentions, (answering pointers).allows t r := by
  rw [← Stmt.forall_blockMentions_iff, VarTable.AnswersAll, Stmt.blockUses_eq]
  constructor
  · intro h r hr use huse
    exact h use (List.mem_filterMap.2 ⟨r, hr, huse⟩)
  · intro h use huse
    obtain ⟨r, hr, huse⟩ := List.mem_filterMap.1 huse
    exact h r hr use huse

/-- Nothing is asked of the flags where no variable is mentioned. -/
lemma answering_allows_member {r : Entity} (hr : r.isVariable = false) :
    (answering pointers).allows t r := by
  intro use huse
  cases r with
  | read id => cases hr
  | pointer id => cases hr
  | _ => cases huse

/-- A callee whose flags answer for its uses. Variables that it does not declare are not used. -/
lemma answering_callee {callee : MethodBody}
    (h : callee.vars.AnswersAll pointers (Stmt.blockUses callee.stmts)) :
    (answering pointers).Callee callee ((answering pointers).allows callee.vars)
      fun _ => False where
  mentions := answersAll_blockUses.1 h
  member _ _ hr _ := answering_allows_member hr
  undeclared id hnone := by
    have hundeclared : ∀ flags, ¬ callee.vars.Answers pointers (id, flags) := by
      rintro flags ⟨v, hv, -⟩
      rw [hnone] at hv
      cases hv
    exact ⟨fun hid => hundeclared _ (hid _ rfl), fun hid => hundeclared _ (hid _ rfl)⟩
  direct {t id target v} hv hflag hid := by
    -- the flags of the variable do not answer for a pointer to it
    obtain ⟨w, hw, -, haddress⟩ := hid (id, .ofAddress) rfl
    obtain rfl : v = w := Option.some.inj (hv.symm.trans hw)
    rw [(haddress rfl).2] at hflag
    cases hflag
  fresh more hv hw hflags := by
    have hincludes : Flags.Includes _ _ := hflags ▸ Flags.union_includes_left _ more
    constructor
    · rintro hid use ⟨⟩
      exact (hid _ rfl).replace hv hw hincludes
    · rintro hid use ⟨⟩
      exact (hid _ rfl).replace hv hw hincludes

/-- In a setting of such callees, they can be taken in at every depth. -/
lemma supports_answering {setting : Setting}
    (hsetting : ∀ method callee, setting.body? method = some callee →
      callee.vars.AnswersAll pointers (Stmt.blockUses callee.stmts)) :
    setting.Supports fun _ (R : (answering pointers).discipline.Reading) =>
      ∀ S, R.fit S → ∀ id, S.StandsIn (answering pointers) (fun _ => False) id := by
  intro depth R e method callee hR _ _ hbody
  refine ⟨(answering_callee (hsetting method callee hbody)).intake, fun S hS id => ?_, hR⟩
  exact ⟨False.elim, False.elim, (hS id).stored⟩

end Answering

/-- The flags after simplification answer for the uses in the simplified statements. -/
lemma answersAll_simplify {pointers : Bool} {setting : Setting} {body : MethodBody}
    {log log' : EventLog} {out : Simplified}
    (hsetting : ∀ method callee, setting.body? method = some callee →
      callee.vars.AnswersAll pointers (Stmt.blockUses callee.stmts))
    (hbody : body.vars.AnswersAll pointers (Stmt.blockUses body.stmts))
    (h : simplify setting body log = .ok out log') :
    out.body.vars.AnswersAll pointers (Stmt.blockUses out.body.stmts) := by
  have hroot : ∀ log id, (Scope.root body.method body.vars log).StandsIn (answering pointers)
      ((answering pointers).allows body.vars) id :=
    fun log id => .of_readVar (Scope.readVar_of_bindings_empty rfl id) (fun hid => hid) fun hid => hid
  have hgives := givesOr_simplify (supports_answering hsetting)
    (R := (answering pointers).reading _ fun _ _ hr _ => answering_allows_member hr)
    (fun S hS id => ⟨False.elim, False.elim, (hS id).stored⟩) hroot (answersAll_blockUses.1 hbody) log
  rw [h] at hgives
  exact answersAll_blockUses.2 hgives.2

/-- After simplification, a variable that is read is flagged as read or as pointed at, provided that
all bodies were built and use declared variables only. It is flagged as read if no body takes a
pointer to a variable. -/
theorem read_flagged_of_simplify {setting : Setting} {body : MethodBody} {log log' : EventLog}
    {out : Simplified}
    (hsetting : ∀ method callee, setting.body? method = some callee →
      callee.IsBuilt ∧ callee.DeclaresUses)
    (hbody : body.IsBuilt ∧ body.DeclaresUses) (h : simplify setting body log = .ok out log')
    {id : VarId} (hid : (id, .ofRead) ∈ Stmt.blockUses out.body.stmts) :
    ∃ v, out.body.vars.get? id = some v ∧
      (v.flags.read = true ∨ v.flags.addressTaken = true) ∧
      ((∀ method callee, setting.body? method = some callee → callee.TakesNoAddress) →
        body.TakesNoAddress → v.flags.read = true) := by
  have hanswers : ∀ pointers, (pointers = true ∨
      (∀ method callee, setting.body? method = some callee → callee.TakesNoAddress) ∧
        body.TakesNoAddress) → out.body.vars.Answers pointers (id, .ofRead) := by
    intro pointers hpointers
    refine answersAll_simplify (fun method callee hcallee => ?_) ?_ h _ hid
    · obtain ⟨hbuilt, hdeclares⟩ := hsetting method callee hcallee
      exact hbuilt.answersAll hdeclares
        (hpointers.imp_right fun hnone => hnone.1 method callee hcallee)
    · exact hbody.1.answersAll hbody.2 (hpointers.imp_right And.right)
  obtain ⟨v, hv, hread, -⟩ := hanswers true (.inl rfl)
  refine ⟨v, hv, (hread rfl).imp_right And.right, fun hcallees hnone => ?_⟩
  obtain ⟨w, hw, hread', -⟩ := hanswers false (.inr ⟨hcallees, hnone⟩)
  obtain rfl : v = w := Option.some.inj (hv.symm.trans hw)
  exact (hread' rfl).resolve_right fun hfalse => Bool.false_ne_true hfalse.1

/-! ## Reads through pointers -/

/-- A static method with one parameter. -/
def peekRef : MethodRef :=
  ⟨⟨"lib", "Store", false⟩, "peek", 1, true⟩

/-- The method `peek` follows its parameter, `return *p`. -/
def peekBody : MethodBody :=
  .build peekRef false (VarTable.empty.declareArgument "p" intType)
    [.ret (some (.read (.deref (.readVar ⟨0⟩))))]

/-- The setting in which only `peek` is known. -/
def peekSetting : Setting where
  body? method := if method = peekRef then some peekBody else none
  policy := .permissive false [] [] []
  config := {}

/-- A body with a local `x` that passes a pointer to it, `return peek(&x)`. -/
def returnPeek : MethodBody :=
  .build ⟨⟨"lib", "Store", false⟩, "main", 0, true⟩ false oneLocal
    [.ret (some (.call peekRef [.addressOf (.var ⟨0⟩)]))]

/-- A body with a local `x` that follows a pointer to it at once, `return *&x`. -/
def returnDetour : MethodBody :=
  .build ⟨⟨"lib", "Store", false⟩, "main", 0, true⟩ false oneLocal
    [.ret (some (.read (.deref (.addressOf (.var ⟨0⟩)))))]

/-- What holds of the only known body holds of every known body. -/
lemma forall_known_of_single {P : MethodBody → Prop} {ref : MethodRef} {b : MethodBody} (h : P b)
    (method : MethodRef) (callee : MethodBody)
    (hcallee : (if method = ref then some b else none) = some callee) : P callee := by
  obtain ⟨-, hcallee⟩ := Option.ite_none_right_eq_some.1 hcallee
  cases hcallee
  exact h

/-- The call of `peek` becomes a read of `x`, which is flagged as pointed at. There are no pointers
where `get` is inlined, and so the new local that is read there is flagged as read. -/
theorem read_flagged_returnPeek :
    (∃ out log, simplify peekSetting returnPeek [] = .ok out log ∧
      out.body.stmts = [.ret (some (.readVar ⟨0⟩))] ∧
      ∃ v, out.body.vars.get? ⟨0⟩ = some v ∧
        (v.flags.read = true ∨ v.flags.addressTaken = true)) ∧
    ∃ out log,
      simplify (getSetting (oneLocal.markUses [(⟨0⟩, .ofRead)])) returnGet [] = .ok out log ∧
      out.body.stmts = [.ret (some (.readVar ⟨1⟩))] ∧
      ∃ v, out.body.vars.get? ⟨1⟩ = some v ∧ v.flags.read = true := by
  constructor
  · have hsimplify : ∃ out log, simplify peekSetting returnPeek [] = .ok out log ∧
        out.body.stmts = [.ret (some (.readVar ⟨0⟩))] := ⟨_, _, rfl, rfl⟩
    obtain ⟨out, log, hsimplify, hstmts⟩ := hsimplify
    have hid : (⟨0⟩, .ofRead) ∈ Stmt.blockUses out.body.stmts := by
      rw [hstmts]
      decide
    obtain ⟨v, hv, hflags, -⟩ := read_flagged_of_simplify
      (forall_known_of_single ⟨⟨_, rfl⟩, by decide⟩) ⟨⟨oneLocal, rfl⟩, by decide⟩ hsimplify hid
    exact ⟨out, log, hsimplify, hstmts, v, hv, hflags⟩
  · have hsimplify : ∃ out log,
        simplify (getSetting (oneLocal.markUses [(⟨0⟩, .ofRead)])) returnGet [] = .ok out log ∧
          out.body.stmts = [.ret (some (.readVar ⟨1⟩))] := ⟨_, _, rfl, rfl⟩
    obtain ⟨out, log, hsimplify, hstmts⟩ := hsimplify
    have hid : (⟨1⟩, .ofRead) ∈ Stmt.blockUses out.body.stmts := by
      rw [hstmts]
      decide
    obtain ⟨v, hv, -, hread⟩ := read_flagged_of_simplify
      (forall_known_of_single ⟨⟨oneLocal, rfl⟩, by decide⟩) ⟨⟨oneLocal, rfl⟩, by decide⟩ hsimplify
      hid
    exact ⟨out, log, hsimplify, hstmts, v, hv,
      hread (forall_known_of_single (by decide)) (by decide)⟩

/-- That a variable that is read is flagged as read is too much to ask for, even if all bodies
declare what they use: the pointer in `*&x` disappears. If they do not, then the variable may have
no flag at all, because what `get` does not declare is taken for the unused local of its caller. -/
theorem not_forall_read_flagged :
    (¬ ∀ (setting : Setting) (body : MethodBody) (log : EventLog) (out : Simplified)
      (log' : EventLog) (id : VarId),
        (∀ method callee, setting.body? method = some callee →
          callee.IsBuilt ∧ callee.DeclaresUses) →
        body.IsBuilt ∧ body.DeclaresUses → simplify setting body log = .ok out log' →
        (id, .ofRead) ∈ Stmt.blockUses out.body.stmts →
          ∃ v, out.body.vars.get? id = some v ∧ v.flags.read = true) ∧
    ¬ ∀ (setting : Setting) (body : MethodBody) (log : EventLog) (out : Simplified)
      (log' : EventLog) (id : VarId),
        (∀ method callee, setting.body? method = some callee →
          callee.IsBuilt ∧ callee.TakesNoAddress) →
        body.IsBuilt ∧ body.TakesNoAddress → simplify setting body log = .ok out log' →
        (id, .ofRead) ∈ Stmt.blockUses out.body.stmts →
          ∃ v, out.body.vars.get? id = some v ∧
            (v.flags.read = true ∨ v.flags.addressTaken = true) := by
  constructor
  · intro hall
    obtain ⟨v, hv, hread⟩ := hall peekSetting returnDetour [] _ _ ⟨0⟩
      (forall_known_of_single ⟨⟨_, rfl⟩, by decide⟩) ⟨⟨oneLocal, rfl⟩, by decide⟩ rfl (by decide)
    cases hv
    cases hread
  · intro hall
    obtain ⟨v, hv, hflags⟩ := hall (getSetting .empty) returnGet [] _ _ ⟨0⟩
      (forall_known_of_single ⟨⟨.empty, rfl⟩, by decide⟩) ⟨⟨oneLocal, rfl⟩, by decide⟩ rfl
      (by decide)
    cases hv
    rcases hflags with hread | haddress
    · cases hread
    · cases haddress

end Inliner
