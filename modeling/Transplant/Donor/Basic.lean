import Transplant.Analysis.Method
import Transplant.Donor.Range
import Transplant.Edit.Marker
import Transplant.Text.Indent

/-! A method that is to be moved, together with the text it was read from. Before it is prepared
nothing is known of its parameters' uses and its returned value. -/
namespace Transplant

structure Parameter where
  index : Nat
  name : String
  type : String
  uses : List ParamUse
deriving DecidableEq, Repr

namespace Parameter

def access (parameter : Parameter) : Access := .joinAll (parameter.uses.map (·.access))

def isUnused (parameter : Parameter) : Bool := parameter.uses.isEmpty

end Parameter

namespace Body

def isDottedName (body : Body) (id : ExprId) : Bool :=
  match body.exprs[id]? with
  | some (.name _ _ _) => true
  | some (.field receiver _ _) => if receiver < id then isDottedName body receiver else false
  | _ => false
termination_by id

/-- Literals and dotted names can be used again without being computed again. -/
def isPlainValue (body : Body) (id : ExprId) : Bool :=
  match body.exprs[id]? with
  | some (.literal _ _ _) => true
  | _ => body.isDottedName id

end Body

/-- The statements that a `return` of a statement can stand in. -/
def StmtNode.inner : StmtNode → List StmtId
  | .block statements _ => statements
  | .ifElse _ yes no _ => yes :: no.toList
  | .whileLoop _ body _ => [body]
  | .forLoop _ _ _ body _ => [body]
  | .forEach _ _ body _ => [body]
  | .tryCatch body catches cleanup _ => body :: (catches.map (·.body) ++ cleanup.toList)
  | _ => []

/-- Whether a statement returns, at any depth, a value that has to be computed. -/
def Body.returnsComputed (body : Body) (id : StmtId) : Bool :=
  match body.stmts[id]? with
  | none => false
  | some (.returns value _) => value.any fun value => !body.isPlainValue value
  | some node => node.inner.any fun inner => if inner < id then returnsComputed body inner else false
termination_by id

structure Donor where
  source : Snapshot
  method : Method Body
  layout : Layout
  parameters : List Parameter
  /-- Whether a call that uses the value several times has to keep it in a variable. -/
  mustEvaluateReturnValue : Bool
  isPrepared : Bool

namespace Donor

def ofMethod (source : Text) (method : Method Body) (layout : Layout) : Donor where
  source := .ofText source
  method := method
  layout := layout
  parameters := method.params.mapIdx fun index param => ⟨index,param.name.text,param.type.text,[]⟩
  mustEvaluateReturnValue := false
  isPrepared := false

variable (donor : Donor)

def hasReturnValue : Bool := !donor.method.isVoid

def statements : List StmtId := (donor.method.body.map (·.statements)).getD []

/-- Whether a value returned in the last statement has to be computed. -/
def returnsComputed : Bool :=
  match donor.method.body,donor.statements.getLast? with
  | some body,some last => body.returnsComputed last
  | _,_ => false

/-- Finds the uses of the parameters and classifies the value returned at the end. -/
def prepare : Donor :=
  { donor with
    parameters := donor.parameters.map fun parameter =>
      { parameter with uses := donor.method.paramUses parameter.index }
    mustEvaluateReturnValue := donor.hasReturnValue && donor.returnsComputed
    isPrepared := true }

/-- Whether the returned expression binds more loosely than an expression around it may. -/
def needsParentheses : Bool :=
  match donor.method.body with
  | none => false
  | some body =>
    match (body.lastReturn?.bind id).bind (body.exprs[·]?) with
    | some (.binary _ _ _ _) => true
    | some (.assign _ _ _ _) => true
    | some (.conditional _ _ _ _) => true
    | some (.instanceOf _ _ _) => true
    | _ => false

end Donor
end Transplant
