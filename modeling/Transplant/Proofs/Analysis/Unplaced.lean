import Transplant.Analysis.Method
import Transplant.Proofs.Item.Moved
import Transplant.Proofs.Java.Unplaced

/-! Findings without their places. Where the parts of a file stand decides nothing: layout and comments
change neither the classes and bodies found in a file nor what speaks against moving a method. -/
namespace Transplant

def ParamUse.move (g : Nat → Nat) (mention : ParamUse) : ParamUse :=
  { mention with span := mention.span.map g }

def ImplicitReceiver.move (g : Nat → Nat) (found : ImplicitReceiver) : ImplicitReceiver :=
  { found with span := found.span.map g }

def Finding.move (g : Nat → Nat) : Finding → Finding
  | .param index mention => .param index (mention.move g)
  | .localVar id span => .localVar id (span.map g)
  | .receiver found => .receiver (found.move g)
  | .superMention span => .superMention (span.map g)
  | .recursion span => .recursion (span.map g)
  | .interruption span => .interruption (span.map g)
  | .unsupported span => .unsupported (span.map g)
  | .unread span => .unread (span.map g)

def Problem.move (g : Nat → Nat) (problem : Problem) : Problem :=
  { problem with span := problem.span.map (Span.map g) }

variable {β γ : Type} (g : Nat → Nat) (onBody : β → γ) (method : Method β) (body : Body)

theorem ExprNode.parts_move (access : Access) (node : ExprNode) : (node.move g).parts access = node.parts access := by
  cases node <;> rfl

theorem StmtNode.parts_move (node : StmtNode) : (node.move g).parts = node.parts := by
  cases node with
  | tryCatch body catches cleanup span =>
    simp only [StmtNode.move,StmtNode.parts,List.map_map]
    rfl
  | _ => rfl

namespace Method

theorem nameFindings_move (id : ExprId) (access : Access) (span : Span) (resolution : Resolution) :
    (method.move g onBody).nameFindings id access (span.map g) resolution =
      (method.nameFindings id access span resolution).map (Finding.move g) := by
  cases resolution with
  | field target =>
    simp only [nameFindings,move]
    rw [apply_ite (List.map (Finding.move g))]
    rfl
  | _ => rfl

theorem isCalledBy_move (name : String) (args : List ExprId) :
    (method.move g onBody).isCalledBy name args = method.isCalledBy name args := by
  simp only [isCalledBy,move,List.length_map]
  rfl

theorem bareCallFindings_move (id : ExprId) (name : String) (args : List ExprId)
    (target : Option MethodRef) (span : Span) :
    (method.move g onBody).bareCallFindings id name args target (span.map g) =
      (method.bareCallFindings id name args target span).map (Finding.move g) := by
  simp only [bareCallFindings,isCalledBy_move]
  simp only [move,apply_ite (List.map (Finding.move g))]
  rfl

theorem isThis_move (id : ExprId) : isThis (body.move g) id = isThis body id := by
  simp only [isThis,Body.move,Array.getElem?_map]
  cases body.exprs[id]? with
  | none => rfl
  | some node => cases node <;> rfl

theorem findingsBefore_move (id : ExprId) (access : Access) (node : ExprNode) :
    (method.move g onBody).findingsBefore (body.move g) id access (node.move g) =
      (method.findingsBefore body id access node).map (Finding.move g) := by
  cases node with
  | name text resolution span => exact nameFindings_move g onBody method id access span resolution
  | call receiver name args target span =>
    cases receiver with
    | none => exact bareCallFindings_move g onBody method id name.text args target span
    | some receiver =>
      simp only [findingsBefore,ExprNode.move,isThis_move,isCalledBy_move,Java.Ident.mapSpans]
      split <;> rfl
  | create outer type args dims initializer inside target span =>
    cases outer with
    | some outer => rfl
    | none =>
      simp only [findingsBefore,ExprNode.move]
      split <;> rfl
  | _ => rfl

theorem findingsAfter_move (node : ExprNode) :
    findingsAfter (node.move g) = (findingsAfter node).map (Finding.move g) := by
  cases node with
  | create outer type args dims initializer inside target span => cases inside <;> rfl
  | _ => rfl

theorem exprFindings_move (access : Access) (id : ExprId) :
    (method.move g onBody).exprFindings (body.move g) access id =
      (method.exprFindings body access id).map (Finding.move g) := by
  induction id using Nat.strongRecOn generalizing access with
  | ind id ih =>
    rw [exprFindings,exprFindings]
    simp only [Body.move,Array.getElem?_map]
    cases body.exprs[id]? with
    | none => rfl
    | some node =>
      have before := findingsBefore_move g onBody method body id access node
      simp only [Body.move] at before ih
      simp only [Option.map_some,before,findingsAfter_move,ExprNode.parts_move,List.map_append,
        List.map_flatMap]
      congr 2
      apply List.flatMap_congr
      intro part _
      split
      · exact ih _ (by assumption) _
      · rfl

theorem leavingFindings_move (isLast : Bool) (node : StmtNode) :
    leavingFindings isLast (node.move g) = (leavingFindings isLast node).map (Finding.move g) := by
  cases node <;> cases isLast <;> rfl

theorem stmtFindings_move (isLast : Bool) (id : StmtId) :
    (method.move g onBody).stmtFindings (body.move g) isLast id =
      (method.stmtFindings body isLast id).map (Finding.move g) := by
  induction id using Nat.strongRecOn generalizing isLast with
  | ind id ih =>
    have values := exprFindings_move g onBody method body .read
    rw [stmtFindings,stmtFindings]
    simp only [Body.move,Array.getElem?_map] at values ih ⊢
    cases body.stmts[id]? with
    | none => rfl
    | some node =>
      simp only [Option.map_some,leavingFindings_move,StmtNode.parts_move,List.map_append,
        List.map_flatMap]
      congr 1
      apply List.flatMap_congr
      intro part _
      cases part with
      | expr value => exact values value
      | stmt inner =>
        simp only
        split
        · exact ih _ (by assumption) _
        · rfl

theorem topFindings_move (list : List StmtId) :
    (method.move g onBody).topFindings (body.move g) list =
      (method.topFindings body list).map (Finding.move g) := by
  induction list with
  | nil => rfl
  | cons first rest ih =>
    cases rest with
    | nil => exact stmtFindings_move g onBody method body true first
    | cons second rest =>
      change _ ++ _ = List.map _ (_ ++ _)
      rw [stmtFindings_move,ih,List.map_append]

theorem statements_move : (body.move g).statements = body.statements := by
  simp only [Body.statements,Body.move,Array.getElem?_map]
  cases body.stmts[body.root]? with
  | none => rfl
  | some node => cases node <;> rfl

theorem findings_move (method : Method Body) :
    (method.move g (Body.move g)).findings = method.findings.map (Finding.move g) := by
  have moved : (method.move g (Body.move g)).body = method.body.map (Body.move g) := rfl
  cases given : method.body with
  | none => simp only [findings,moved,given,Option.map_none,List.map_nil]
  | some body =>
    simp only [findings,moved,given,Option.map_some,statements_move]
    exact topFindings_move g (Body.move g) method body body.statements

/-- Moved findings are picked at their moved places. -/
theorem picked_move (pick : Finding → Option Span) (method : Method Body)
    (moves : ∀ finding : Finding, pick (finding.move g) = (pick finding).map (Span.map g)) :
    (method.move g (Body.move g)).findings.filterMap pick =
      (method.findings.filterMap pick).map (Span.map g) := by
  rw [findings_move,List.filterMap_map,List.map_filterMap]
  exact List.filterMap_congr fun finding _ => moves finding

/-- What speaks against moving a method, and in which order, does not depend on its place. -/
theorem activation_move (method : Method Body) :
    (method.move g (Body.move g)).activation = method.activation.map (Problem.move g) := by
  have recursions : (method.move g (Body.move g)).recursiveCalls = method.recursiveCalls.map (Span.map g) :=
    picked_move g _ method fun finding => by cases finding <;> rfl
  have supers : (method.move g (Body.move g)).superMentions = method.superMentions.map (Span.map g) :=
    picked_move g _ method fun finding => by cases finding <;> rfl
  have interruptions : (method.move g (Body.move g)).interruptions = method.interruptions.map (Span.map g) :=
    picked_move g _ method fun finding => by cases finding <;> rfl
  have unsupported : (method.move g (Body.move g)).unsupportedStatements =
      method.unsupportedStatements.map (Span.map g) :=
    picked_move g _ method fun finding => by cases finding <;> rfl
  have unread : (method.move g (Body.move g)).unreadExpressions =
      method.unreadExpressions.map (Span.map g) :=
    picked_move g _ method fun finding => by cases finding <;> rfl
  have body : (method.move g (Body.move g)).body.isNone = method.body.isNone := Option.isNone_map
  have name : (method.move g (Body.move g)).name = method.name.mapSpans (Span.map g) := rfl
  simp only [activation,recursions,supers,interruptions,unsupported,unread,body,name,
    apply_ite (List.map (Problem.move g)),List.map_append,List.map_map]
  rfl

end Method

/-- An item tree with all spans empty at the start of the text. -/
def ItemTree.unplaced (tree : ItemTree Body) : ItemTree Body :=
  tree.move (fun _ => 0) (Body.move fun _ => 0)

def Problem.verdict (problem : Problem) : Severity × String × String :=
  (problem.severity,problem.code,problem.message)

end Transplant
