import Transplant.Proofs.Java.Levels
import Transplant.Proofs.Java.Loop

/-! The loops that files are read with. Each turn of each of them passes a token or is the last. -/
namespace Transplant.Java

open Token (Kind)

variable {tokens : List Token} {i : Nat}

/-- The readers of expressions do not go back. -/
theorem Parser.exprReaders_on (i : Nat) : Parser.exprReaders.Alike tokens Parser.exprReaders i :=
  have unfolded := ExprLevel.recursion.unfolds i
  { expr := .shared unfolded.expr.reads
    conditional := .shared unfolded.conditional.reads
    binary := fun least => .shared (unfolded.binary least).reads
    unary := .shared unfolded.unary.reads
    initializer := .shared unfolded.initializer.reads }

namespace ExprLevel

open Reads

theorem arrayDim_steps : Steps tokens (arrayDim Parser.exprReaders) i := by
  refine eat (fun _ => ahead ?_) fun _ => pure ⟨Nat.le_refl i,nofun⟩
  have closed (length : Option Expr) (k : Nat) :
      Alike tokens (do discard (Parser.expect .bracketClose); return some length) _ k :=
    .bind .closing fun _ _ _ => .pure (some length)
  refine .sees (fun _ => closed none _) fun _ => ?_
  exact .bind (Parser.exprReaders_on _).expr fun e k _ => closed (some e) k

theorem argList_passes (seen : Seen tokens i .parenOpen) :
    Reads tokens (argList Parser.exprReaders) i fun _ j => i < j := by
  refine bind expect.discard fun _ k ⟨_,known⟩ _ => ?_
  have first : k = i + 1 := by
    rcases known with ⟨_,_,_,_,after⟩ | ⟨unseen,_⟩
    · exact after
    · exact absurd seen unseen
  subst first
  have closed (all : List Expr) (l : Nat) :
      Alike tokens (do discard (Parser.expect .parenClose); return all) _ l :=
    .bind .closing fun _ _ _ => .pure all
  refine onward (.bind (.separated fun l _ => (Parser.exprReaders_on l).expr) fun args k _ => .get ?_)
  exact .ite (fun _ => closed args k) fun _ => .bind (unread_alike _) fun _ l _ => closed _ l

theorem postfixStep_steps (e : Expr) : Steps tokens (postfixStep Parser.exprReaders e) i := by
  refine eat (fun _ => ahead (.eatWord (fun _ => ?new) ?member)) fun _ =>
    sees (fun seen => ite (fun _ => ?call) fun _ => ?_) fun _ => ite (fun isCallee => ?none) fun _ => ?_
  case new => exact .bind (creation_alike (fun k _ => Parser.exprReaders_on k) _ _) fun _ _ _ => .pure _
  case member => exact .bind (skipNested_alike _ _) fun _ _ _ => .bind .expect fun _ _ _ => .spanFrom (.pure _)
  case call =>
    refine bind (argList_passes seen) fun _ k before _ => spanFrom ?_
    exact pure ⟨Nat.le_of_lt before,fun _ _ => before⟩
  case none => simp at isCallee
  -- No call in both cases that are left.
  all_goals
    refine eat (fun _ => ahead ?_) fun _ => eat (fun _ => ahead (.spanFrom (.pure _))) fun _ =>
      eat (fun _ => ahead (.spanFrom (.pure _))) fun _ => pure ⟨Nat.le_refl i,nofun⟩
    exact .bind (Parser.exprReaders_on _).expr fun _ _ _ => .bind .closing fun _ _ _ => .spanFrom (.pure _)

theorem binaryStep_steps (least : Nat) (left : Expr) :
    Steps tokens (binaryStep Parser.exprReaders least left) i := by
  refine get (ite (fun tested => ?_) fun _ => ?_)
  · simp only [Bool.and_eq_true,Cursor.on_seesWord_iff] at tested
    refine skip 1 tested.1.ident.lt (ahead (.bind skipVariableModifiers_alike fun _ _ _ => ?_))
    refine .bind typeRefOrEmpty_alike fun type k _ => .get (.ite (fun named => ?_) fun _ => .spanFrom (.pure _))
    simp only [Bool.and_eq_true,Cursor.on_sees_iff] at named
    exact .skip 1 named.1.lt (.spanFrom (.pure _))
  · split
    · rename_i op precedence found
      refine ite (fun _ => pure ⟨Nat.le_refl i,nofun⟩) fun _ => skip 1 (operator_quiet rfl found).1 (ahead ?_)
      exact .bind ((Parser.exprReaders_on _).binary _) fun _ _ _ => .pure _
    · exact pure ⟨Nat.le_refl i,nofun⟩

end ExprLevel

namespace StmtLevel

/-- One variable of a declaration. -/
def declarator : Parser Declarator := do
  let name ← Parser.expect .ident
  discard Parser.dimensions
  let initializer ← if ← Parser.eat .assign then do pure (some (← Parser.initializer)) else pure none
  return ⟨name,initializer,← Parser.spanFrom name.span.start⟩

theorem declarators_succ (turns : Nat) : declarators (turns + 1) = (do
    let declared ← declarator
    if ← Parser.eat .comma then return declared :: (← declarators turns)
    else return [declared]) := by
  simp only [declarators,declarator,bind_assoc]
  refine bind_congr fun name => bind_congr fun _ => bind_congr fun assigned => ?_
  cases assigned with
  | false => rfl
  | true => exact (bind_assoc _ _ _).symm

/-- The variables of a declaration, up to where a comma is missing. -/
def declaring : Loop where
  Held := List Declarator
  Out := List Declarator
  turn list := do
    let declared ← declarator
    if ← Parser.eat .comma then return .again (list ++ [declared])
    else return .done (list ++ [declared])
  run turns list := Parser.behind list (declarators turns)
  unroll turns list := by
    rw [declarators_succ,Parser.behind_bind,bind_assoc]
    refine bind_congr fun declared => ?_
    rw [Parser.behind_bind,bind_assoc]
    refine bind_congr fun comma => ?_
    cases comma with
    | false => rfl
    | true => exact Parser.behind_behind list [declared] _

theorem read_declaring : declaring.read [] = Parser.bounded declarators := by
  simp only [Loop.read,declaring,Parser.behind_nil]

open Reads

theorem declarator_on : Reads tokens declarator i fun _ j => i ≤ j := by
  refine onward (.bind .expect fun name _ _ => .bind dimensions_alike.discard fun _ _ _ => .eat (fun _ => ?_) ?_)
  · refine .bind (Parser.exprReaders_on _).initializer fun _ _ _ => .bind (.pure _) fun _ _ _ => ?_
    exact .spanFrom (.pure _)
  · exact .bind (.pure _) fun _ _ _ => .spanFrom (.pure _)

theorem declaring_advances : declaring.Advances tokens := by
  refine fun list i => bind declarator_on fun declared k on _ => eat (fun _ => ?_) fun _ => pure ⟨on,nofun⟩
  exact pure ⟨Nat.le_succ_of_le on,fun _ _ => Nat.lt_succ_of_le on⟩

theorem caughtType_steps (type : TypeRef) : Steps tokens (caughtType type) i := by
  refine eat (fun _ => ahead (.bind typeRef_alike fun found _ _ => ?_)) fun _ => pure ⟨Nat.le_refl i,nofun⟩
  cases found <;> exact .pure _

theorem stmt_on (i : Nat) : Alike tokens Parser.stmt Parser.stmt i := .shared (recursion.unfolds i).reads

theorem catchClause_steps : Steps tokens (catchClause Parser.stmt) i := by
  refine nextStart (eatWord (fun _ => ahead ?_) fun _ => pure ⟨Nat.le_refl i,nofun⟩)
  refine .bind .closing fun _ _ _ => .bind skipVariableModifiers_alike fun _ _ _ => ?_
  refine .bind typeRefOrEmpty_alike fun type _ _ => ?_
  refine .bind (.repeated (fun type _ _ => caughtType_alike type) type) fun _ _ _ => ?_
  refine .bind .expect fun _ _ _ => .bind .closing fun _ _ _ => ?_
  exact .bind (block_alike fun k _ _ => stmt_on k) fun _ _ _ => .pure _

end StmtLevel

theorem Reads.importDecl : Steps tokens Parser.importDecl i := by
  refine .nextStart (eatWord (fun _ => ahead ?_) fun _ => pure ⟨Nat.le_refl i,nofun⟩)
  refine .bind (.eatWord (fun _ => .pure true) (.pure false)) fun isStatic _ _ => .bind .expect fun first _ _ => ?_
  refine .bind (.repeated (fun path _ _ => .shared ((importPart path).mono fun _ _ on _ => on.1)) _) fun path _ _ => ?_
  exact .bind .closing fun _ _ _ => .spanFrom (.pure _)

/-- The loops that files are read with: what the first turn is given, and the reader that it makes. -/
inductive Looped : (loop : Loop) → loop.Held → Parser loop.Out → Prop where
  -- Names, types and parameters.
  | nameParts : Looped (.many Parser.namePart) [] (Parser.many Parser.namePart)
  | variableModifiers : Looped (.repeated fun _ => Parser.variableModifier) () Parser.skipVariableModifiers
  | modifiers : Looped (.repeated Parser.modifier) Modifiers.none Parser.modifiers
  | typeSegments (text : String) : Looped (.repeated Parser.typeSegment) text
      (Parser.repeated Parser.typeSegment text)
  | dimensions : Looped (.repeated Parser.dimension) (0 : Nat) Parser.dimensions
  | params : Looped (.gathered [.parenClose] Parser.listedParam) []
      (Parser.gathered [.parenClose] Parser.listedParam)
  -- Expressions.
  | args : Looped (.separated [.parenClose] Parser.expr) [] (Parser.separated [.parenClose] Parser.expr)
  | elements : Looped (.separated [.braceClose] Parser.initializer) []
      (Parser.separated [.braceClose] Parser.initializer)
  | lengths : Looped (.many (ExprLevel.arrayDim Parser.exprReaders)) [] (ExprLevel.arrayDims Parser.exprReaders)
  | accesses (e : Expr) : Looped (.repeated (ExprLevel.postfixStep Parser.exprReaders)) e
      (Parser.repeated (ExprLevel.postfixStep Parser.exprReaders) e)
  | operators (least : Nat) (left : Expr) : Looped (.repeated (ExprLevel.binaryStep Parser.exprReaders least)) left
      (Parser.repeated (ExprLevel.binaryStep Parser.exprReaders least) left)
  -- Statements. What is separated behind a loop's condition is read like arguments.
  | declarators : Looped StmtLevel.declaring [] (Parser.bounded StmtLevel.declarators)
  | loopInits : Looped (.separated [.semicolon,.parenClose] Parser.expr) []
      (Parser.separated [.semicolon,.parenClose] Parser.expr)
  | statements : Looped (.gathered [.braceClose] Parser.stmt) [] (Parser.gathered [.braceClose] Parser.stmt)
  | caughtTypes (type : TypeRef) : Looped (.repeated StmtLevel.caughtType) type
      (Parser.repeated StmtLevel.caughtType type)
  | catches : Looped (.many (StmtLevel.catchClause Parser.stmt)) [] (Parser.many (StmtLevel.catchClause Parser.stmt))
  -- Declarations.
  | constants : Looped (.repeated fun _ => MemberLevel.enumConstant) ()
      (Parser.repeated (fun _ => MemberLevel.enumConstant) ())
  | members (owner : String) : Looped (.gathered [.braceClose] (Parser.member owner)) []
      (Parser.gathered [.braceClose] (Parser.member owner))
  | importParts (path : List String × Bool) : Looped (.repeated Parser.importPart) path
      (Parser.repeated Parser.importPart path)
  | imports : Looped (.many Parser.importDecl) [] (Parser.many Parser.importDecl)
  | types : Looped (.gathered [] Parser.typeDecl) [] (Parser.gathered [] Parser.typeDecl)
  -- Tokens that are passed over unread.
  | passed (keep : Kind → Bool) : Looped (.skipWhile keep) () (Parser.skipWhile keep)
  | nested (opening closing : Kind) : Looped (.nested opening closing) (1 : Nat)
      (modify fun cursor => cursor.skip (nestedLength opening closing 1 cursor.rest))
  | outside (stops : List Kind) (brackets : List (Kind × Kind)) : Looped (.outside stops brackets) none
      (Parser.skipOutside stops brackets)

namespace Looped

variable {loop : Loop} {held : loop.Held} {reader : Parser loop.Out} (looped : Looped loop held reader)

include looped

theorem read_eq : loop.read held = reader := by
  cases looped with
  | nameParts | lengths | catches | imports => exact Loop.read_many _
  | params | statements | members | types => exact Loop.read_gathered _
  | args | elements | loopInits => exact Loop.read_separated _
  | declarators => exact StmtLevel.read_declaring
  | _ => rfl

/-- Each turn of a loop that is not its last passes a token. -/
theorem advances : loop.Advances tokens := by
  cases looped with
  | nameParts => exact Loop.advances_many fun _ => Reads.namePart.mono fun _ _ given _ => ⟨given.1,given.2.2⟩
  | variableModifiers =>
    exact Loop.advances_repeated fun _ _ => Reads.variableModifier.mono fun _ _ given _ => given.imp_left Spelled.le
  | modifiers => exact Loop.advances_repeated fun flags _ => Reads.modifier flags
  | typeSegments => exact Loop.advances_repeated fun text _ => Reads.typeSegment text
  | dimensions =>
    exact Loop.advances_repeated fun count _ =>
      (Reads.dimension count).mono fun _ _ given _ => given.imp_left Spelled.le
  | params => exact Loop.advances_gathered fun _ => Reads.listedParam_fits.mono fun _ _ given _ => given.1
  | args => exact Loop.advances_separated fun k => (Parser.exprReaders_on k).expr.reads
  | elements => exact Loop.advances_separated fun k => (Parser.exprReaders_on k).initializer.reads
  | lengths => exact Loop.advances_many fun _ => ExprLevel.arrayDim_steps
  | accesses => exact Loop.advances_repeated fun e _ => ExprLevel.postfixStep_steps e
  | operators least => exact Loop.advances_repeated fun left _ => ExprLevel.binaryStep_steps least left
  | declarators => exact StmtLevel.declaring_advances
  | loopInits => exact Loop.advances_separated fun k => (Parser.exprReaders_on k).expr.reads
  | statements => exact Loop.advances_gathered fun k => (StmtLevel.stmt_on k).reads
  | caughtTypes => exact Loop.advances_repeated fun type _ => StmtLevel.caughtType_steps type
  | catches => exact Loop.advances_many fun _ => StmtLevel.catchClause_steps
  | constants => exact Loop.advances_repeated fun _ _ => MemberLevel.enumConstant_reads
  | members owner => exact Loop.advances_gathered fun k => (MemberLevel.recursion.unfolds k owner).reads
  | importParts => exact Loop.advances_repeated fun path _ => Reads.importPart path
  | imports => exact Loop.advances_many fun _ => Reads.importDecl
  | types => exact Loop.advances_gathered fun _ => Reads.typeDecl_fits.mono fun _ _ given _ => given.1
  | passed keep => exact Loop.advances_passing _ _
  | nested opening closing => exact Loop.advances_passing _ _
  | outside stops brackets => exact Loop.advances_passing _ _

theorem reads (i : Nat) : Reads tokens reader i (loop.Runs tokens held i) := by
  rw [← looped.read_eq]
  exact looped.advances.ends.reads held

end Looped
end Transplant.Java
