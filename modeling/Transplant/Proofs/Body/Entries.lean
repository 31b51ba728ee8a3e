import Mathlib.Data.List.Perm.Basic
import Transplant.Proofs.Body.Table

/-! The entries of the tables against the source. From the statements at the top of a body each entry
is reached once, so that the findings are those of all entries; and what is spelled at the entries
is what is spelled on the way through the source. -/
namespace Transplant

open Java (Ident TypeRef Param Expr Declarator Stmt Block Catch)

/-- An entry as it is looked at: an expression with its access, a statement that may leave the body
or not. -/
inductive Entry where
  | expr (id : ExprId) (access : Access)
  | stmt (id : StmtId) (isLast : Bool)
deriving DecidableEq, Repr

def Entry.part : Entry → StmtPart
  | .expr id _ => .expr id
  | .stmt id _ => .stmt id

namespace Body

variable (body : Body)

/-- An expression and all that is inside it. -/
def exprEntries (access : Access) (id : ExprId) : List Entry :=
  match body.exprs[id]? with
  | none => []
  | some node =>
    .expr id access :: (node.parts access).flatMap fun part =>
      if part.1 < id then exprEntries part.2 part.1 else []
termination_by id

/-- A statement and all that is inside it. -/
def stmtEntries (isLast : Bool) (id : StmtId) : List Entry :=
  match body.stmts[id]? with
  | none => []
  | some node =>
    .stmt id isLast :: node.parts.flatMap fun part =>
      match part with
      | .expr value => body.exprEntries .read value
      | .stmt inner => if inner < id then stmtEntries false inner else []
termination_by id

/-- The statements at the top of a body, of which the last may leave it. -/
def topEntries : List StmtId → List Entry
  | [] => []
  | [last] => body.stmtEntries true last
  | id :: rest => body.stmtEntries false id ++ topEntries rest

def entriesOf : Entry → List Entry
  | .expr id access => body.exprEntries access id
  | .stmt id isLast => body.stmtEntries isLast id

end Body

namespace Method

variable {γ : Type} (method : Method γ) (body : Body)

/-- What an entry shows without its parts. -/
def ownFindings : Entry → List Finding
  | .expr id access =>
    match body.exprs[id]? with
    | some node => method.findingsBefore body id access node ++ findingsAfter node
    | none => []
  | .stmt id isLast =>
    match body.stmts[id]? with
    | some node => leavingFindings isLast node
    | none => []

theorem exprFindings_perm (access : Access) (id : ExprId) : (method.exprFindings body access id).Perm
    ((body.exprEntries access id).flatMap (method.ownFindings body)) := by
  induction id using Nat.strongRecOn generalizing access with
  | ind id ih =>
    rw [exprFindings,Body.exprEntries]
    cases found : body.exprs[id]? with
    | none => exact .nil
    | some node =>
      simp only [List.flatMap_cons,List.flatMap_assoc,ownFindings,found,List.append_assoc]
      refine .append_left _ (List.perm_append_comm.trans (.append_left _ ?_))
      refine .flatMap_left _ fun part _ => ?_
      split
      · exact ih part.1 ‹_› part.2
      · exact .nil

theorem stmtFindings_perm (isLast : Bool) (id : StmtId) : (method.stmtFindings body isLast id).Perm
    ((body.stmtEntries isLast id).flatMap (method.ownFindings body)) := by
  induction id using Nat.strongRecOn generalizing isLast with
  | ind id ih =>
    rw [stmtFindings,Body.stmtEntries]
    cases found : body.stmts[id]? with
    | none => exact .nil
    | some node =>
      simp only [List.flatMap_cons,List.flatMap_assoc,ownFindings,found]
      refine .append_left _ (.flatMap_left _ fun part _ => ?_)
      cases part with
      | expr value => exact method.exprFindings_perm body .read value
      | stmt inner =>
        simp only
        split
        · exact ih inner ‹_› false
        · exact .nil

/-- What is found at the top of a body is what the entries show. -/
theorem topFindings_perm (ids : List StmtId) : (method.topFindings body ids).Perm
    ((body.topEntries ids).flatMap (method.ownFindings body)) := by
  induction ids with
  | nil => exact .nil
  | cons id rest ih =>
    cases rest with
    | nil => exact method.stmtFindings_perm body true id
    | cons second rest =>
      simp only [topFindings,Body.topEntries,List.flatMap_append] at ih ⊢
      exact (method.stmtFindings_perm body false id).append ih

end Method

/-- A name as it is used, with what it stands for. -/
structure NameUse where
  name : String
  resolution : Resolution
  span : Span
deriving DecidableEq, Repr

/-- A word of the source where it stands, and where the expression begins that is named by it. -/
structure Spelling where
  text : String
  span : Span
  front : Nat
deriving DecidableEq, Repr

def ExprNode.nameUse? : ExprNode → Option NameUse
  | .name text resolution span => some ⟨text,resolution,span⟩
  | _ => none

/-- The name of a variable or of a method that is called without a receiver, or `this`. -/
def ExprNode.spelling? : ExprNode → Option Spelling
  | .name text _ span => some ⟨text,span,span.start⟩
  | .this span => some ⟨"this",span,span.start⟩
  | .call none callee _ _ span => some ⟨callee.text,callee.span,span.start⟩
  | _ => none

namespace Visit

def nameUse? {β : Type} (scope : Scope β) : Visit → Option NameUse
  | .name text visible _ span => some ⟨text,scope.resolve visible text,span⟩
  | _ => none

def spelling? : Visit → Option Spelling
  | .name text _ _ span => some ⟨text,span,span.start⟩
  | .this span => some ⟨"this",span,span.start⟩
  | .call callee _ span => some ⟨callee.text,callee.span,span.start⟩
  | _ => none

end Visit

/-- All entries of the tables. -/
def Draft.parts (draft : Draft) : List StmtPart :=
  (List.range draft.stmts.size).map .stmt ++ (List.range draft.exprs.size).map .expr

namespace Drafting

variable {β γ : Type} (scope : Scope β)

/-- The parts reach every entry that is new once, and the new entries say what the visits say. -/
structure Filled (before : Draft) (parts : List StmtPart) (visits : List Visit) (after : Draft) : Prop where
  grown : Extends before after
  known : ∀ part ∈ parts, part ∈ after.parts
  names : after.exprs.toList.filterMap ExprNode.nameUse? =
    before.exprs.toList.filterMap ExprNode.nameUse? ++ visits.filterMap (Visit.nameUse? scope)
  spellings : (after.exprs.toList.filterMap ExprNode.spelling?).Perm
    (before.exprs.toList.filterMap ExprNode.spelling? ++ visits.filterMap Visit.spelling?)
  reached : ∀ body, Holds body after → ∀ entries : List Entry, entries.map Entry.part = parts →
    (before.parts ++ (entries.flatMap body.entriesOf).map Entry.part).Perm after.parts

variable {scope} {before middle after : Draft} {parts rest : List StmtPart} {visits others : List Visit}

theorem expr_mem_parts {id : ExprId} : .expr id ∈ before.parts ↔ id < before.exprs.size := by
  simp [Draft.parts]

theorem stmt_mem_parts {id : StmtId} : .stmt id ∈ before.parts ↔ id < before.stmts.size := by
  simp [Draft.parts]

theorem Extends.keeps (grown : Extends before after) {part : StmtPart} (known : part ∈ before.parts) :
    part ∈ after.parts := by
  cases part with
  | expr id =>
    have found := grown.exprs id _ (Array.getElem?_eq_getElem (expr_mem_parts.mp known))
    exact expr_mem_parts.mpr (Array.getElem?_eq_some_iff.mp found).1
  | stmt id =>
    have found := grown.stmts id _ (Array.getElem?_eq_getElem (stmt_mem_parts.mp known))
    exact stmt_mem_parts.mpr (Array.getElem?_eq_some_iff.mp found).1

theorem addExpr_parts (node : ExprNode) :
    (StmtPart.expr (addExpr node before).1 :: before.parts).Perm (addExpr node before).2.parts := by
  have counted : (addExpr node before).2.parts = before.parts ++ [.expr before.exprs.size] := by
    change (List.range before.stmts.size).map StmtPart.stmt ++
      (List.range (before.exprs.push node).size).map .expr = _
    simp [Draft.parts,List.range_succ]
  rw [counted]
  exact (List.perm_append_singleton _ _).symm

theorem addStmt_parts (node : StmtNode) :
    (StmtPart.stmt (addStmt node before).1 :: before.parts).Perm (addStmt node before).2.parts := by
  have counted : (addStmt node before).2.parts =
      (List.range before.stmts.size).map .stmt ++ .stmt before.stmts.size ::
        (List.range before.exprs.size).map .expr := by
    change (List.range (before.stmts.push node).size).map StmtPart.stmt ++ _ = _
    simp [List.range_succ]
    rfl
  rw [counted]
  exact List.perm_middle.symm

theorem filterMap_singleton {α κ : Type} (f : α → Option κ) (a : α) : [a].filterMap f = (f a).toList := by
  cases found : f a <;> simp [found]

namespace Filled

theorem nil (draft : Draft) : Filled scope draft [] [] draft := by
  refine ⟨.refl draft,nofun,by simp,by simp,fun body _ entries none => ?_⟩
  rw [List.map_eq_nil_iff.mp none]
  simp

theorem append (first : Filled scope before parts visits middle)
    (second : Filled scope middle rest others after) :
    Filled scope before (parts ++ rest) (visits ++ others) after where
  grown := first.grown.trans second.grown
  known := List.forall_mem_append.mpr ⟨fun part member => second.grown.keeps (first.known part member),second.known⟩
  names := by rw [second.names,first.names,List.filterMap_append,List.append_assoc]
  spellings := by
    refine second.spellings.trans ?_
    rw [List.filterMap_append,← List.append_assoc]
    exact first.spellings.append_right _
  reached := by
    intro body holds entries listed
    obtain ⟨early,late,rfl,left,right⟩ := List.map_eq_append_iff.mp listed
    rw [List.flatMap_append,List.map_append,← List.append_assoc]
    exact ((first.reached body (holds.of_extends second.grown) early left).append_right _).trans
      (second.reached body holds late right)

/-- Visits that spell nothing make no difference. -/
theorem congr (filled : Filled scope before parts visits after)
    (named : others.filterMap (Visit.nameUse? scope) = visits.filterMap (Visit.nameUse? scope))
    (spelled : others.filterMap Visit.spelling? = visits.filterMap Visit.spelling?) :
    Filled scope before parts others after where
  grown := filled.grown
  known := filled.known
  names := by rw [filled.names,named]
  spellings := by
    rw [spelled]
    exact filled.spellings
  reached := filled.reached

theorem outside (filled : Filled scope before parts visits after) (visible : Locals) :
    Filled scope before parts visits { after with visible := visible } where
  grown := ⟨filled.grown.exprs,filled.grown.stmts⟩
  known := filled.known
  names := filled.names
  spellings := filled.spellings
  reached := fun body holds => filled.reached body ⟨holds.exprs,holds.stmts⟩

/-- An expression is reached before its parts. -/
theorem addExpr (ids : List ExprId) (filled : Filled scope before (ids.map .expr) visits middle)
    (node : ExprNode) (inside : ∀ access, (node.parts access).map (·.1) = ids)
    (named : others.filterMap (Visit.nameUse? scope) =
      visits.filterMap (Visit.nameUse? scope) ++ node.nameUse?.toList)
    (spelled : (visits.filterMap Visit.spelling? ++ node.spelling?.toList).Perm
      (others.filterMap Visit.spelling?)) :
    Filled scope before [.expr (Drafting.addExpr node middle).1] others (Drafting.addExpr node middle).2 where
  grown := filled.grown.trans (addExpr_extends node middle)
  known := List.forall_mem_singleton.mpr (addExpr_parts node |>.subset List.mem_cons_self)
  names := by
    change (middle.exprs.push node).toList.filterMap ExprNode.nameUse? = _
    rw [Array.toList_push,List.filterMap_append,filled.names,named,List.append_assoc,filterMap_singleton]
  spellings := by
    change ((middle.exprs.push node).toList.filterMap ExprNode.spelling?).Perm _
    rw [Array.toList_push,List.filterMap_append,filterMap_singleton]
    refine (filled.spellings.append_right _).trans ?_
    rw [List.append_assoc]
    exact spelled.append_left _
  reached := by
    intro body holds entries listed
    obtain ⟨entry,rfl,same⟩ := List.map_eq_singleton_iff.mp listed
    cases entry with
    | stmt id isLast => cases same
    | expr id access =>
      cases same
      have found := holds.exprs _ _ (addExpr_found node middle)
      let parts : List Entry := (node.parts access).map fun part => .expr part.1 part.2
      have listed : parts.map Entry.part = ids.map .expr := by
        rw [← inside access,List.map_map,List.map_map]
        rfl
      have unfolded : body.exprEntries access (Drafting.addExpr node middle).1 =
          .expr (Drafting.addExpr node middle).1 access :: parts.flatMap body.entriesOf := by
        rw [Body.exprEntries,found,List.flatMap_map]
        refine congrArg _ (List.flatMap_congr fun part member => if_pos ?_)
        refine expr_mem_parts.mp (filled.known _ ?_)
        rw [← inside access,List.map_map]
        exact List.mem_map_of_mem (f := fun part => StmtPart.expr part.1) member
      have behind := filled.reached body (holds.of_extends (addExpr_extends node middle)) parts listed
      rw [List.flatMap_singleton,Body.entriesOf,unfolded,List.map_cons]
      exact List.perm_middle.trans ((behind.cons _).trans (addExpr_parts node))

/-- A node that spells nothing itself. -/
theorem addPlain (ids : List ExprId) (filled : Filled scope before (ids.map .expr) visits middle)
    (node : ExprNode) (inside : ∀ access, (node.parts access).map (·.1) = ids)
    (named : others.filterMap (Visit.nameUse? scope) = visits.filterMap (Visit.nameUse? scope))
    (spelled : others.filterMap Visit.spelling? = visits.filterMap Visit.spelling?)
    (unnamed : node.nameUse? = none := by rfl) (unspelled : node.spelling? = none := by rfl) :
    Filled scope before [.expr (Drafting.addExpr node middle).1] others (Drafting.addExpr node middle).2 :=
  filled.addExpr ids node inside (by simp [named,unnamed]) (by simp [spelled,unspelled])

/-- A node without parts. -/
theorem leaf (node : ExprNode) (before : Draft) (alone : ∀ access, node.parts access = [])
    (named : others.filterMap (Visit.nameUse? scope) = node.nameUse?.toList)
    (spelled : others.filterMap Visit.spelling? = node.spelling?.toList) :
    Filled scope before [.expr (Drafting.addExpr node before).1] others (Drafting.addExpr node before).2 :=
  (nil before).addExpr [] node (fun access => by simp [alone]) named (by rw [spelled]; exact .refl _)

/-- A statement is reached before its parts. -/
theorem addStmt (filled : Filled scope before parts visits middle) (node : StmtNode) (inside : node.parts = parts)
    (named : others.filterMap (Visit.nameUse? scope) = visits.filterMap (Visit.nameUse? scope))
    (spelled : others.filterMap Visit.spelling? = visits.filterMap Visit.spelling?) :
    Filled scope before [.stmt (Drafting.addStmt node middle).1] others (Drafting.addStmt node middle).2 where
  grown := filled.grown.trans (addStmt_extends node middle)
  known := List.forall_mem_singleton.mpr (addStmt_parts node |>.subset List.mem_cons_self)
  names := by
    rw [named]
    exact filled.names
  spellings := by
    rw [spelled]
    exact filled.spellings
  reached := by
    intro body holds entries listed
    obtain ⟨entry,rfl,same⟩ := List.map_eq_singleton_iff.mp listed
    cases entry with
    | expr id access => cases same
    | stmt id isLast =>
      cases same
      have found := holds.stmts _ _ (addStmt_found node middle)
      let lookAt : StmtPart → Entry
        | .expr value => .expr value .read
        | .stmt inner => .stmt inner false
      have listed : (parts.map lookAt).map Entry.part = parts := by
        rw [List.map_map]
        exact List.map_id'' (fun part => by cases part <;> rfl) parts
      have unfolded : body.stmtEntries isLast (Drafting.addStmt node middle).1 =
          .stmt (Drafting.addStmt node middle).1 isLast :: (parts.map lookAt).flatMap body.entriesOf := by
        rw [Body.stmtEntries,found,List.flatMap_map,← inside]
        refine congrArg _ (List.flatMap_congr fun part member => ?_)
        cases part with
        | expr value => rfl
        | stmt inner => exact if_pos (stmt_mem_parts.mp (filled.known _ (inside ▸ member)))
      have behind := filled.reached body (holds.of_extends (addStmt_extends node middle)) _ listed
      rw [List.flatMap_singleton,Body.entriesOf,unfolded,List.map_cons]
      exact List.perm_middle.trans ((behind.cons _).trans (addStmt_parts node))

end Filled

section Expressions

variable (scope) (method : Method γ)

def Fills (e : Expr) : Prop := ∀ before access,
  Filled scope before [.expr (expr scope e before).1] (e.walk before.visible access) (expr scope e before).2

def FillsAll (list : List Expr) : Prop := ∀ before,
  Filled scope before ((exprs scope list before).1.map .expr) (Expr.walkAll before.visible list)
    (exprs scope list before).2

def FillsOption (value : Option Expr) : Prop := ∀ before,
  Filled scope before ((exprOption scope value before).1.toList.map .expr)
    (Expr.walkOption before.visible value) (exprOption scope value before).2

variable {scope}

variable (scope) in
theorem anonymous_silent (body : Option Span) :
    (body.toList.map Visit.anonymous).filterMap (Visit.nameUse? scope) = [] ∧
      (body.toList.map Visit.anonymous).filterMap Visit.spelling? = [] := by
  cases body <;> exact ⟨rfl,rfl⟩

theorem map_read (ids : List ExprId) : (ids.map (·,Access.read)).map (·.1) = ids := by
  simp [Function.comp_def]

section Parts

variable {first second receiver : Expr} {args : List Expr}

/-- A callee that is no expression of its own is met before the arguments and put behind them. -/
theorem FillsAll.bareCall (listed : FillsAll scope args) (callee : Ident) (target : Option MethodRef) (span : Span)
    (before : Draft) : Filled scope before
      [.expr (addExpr (.call none callee (exprs scope args before).1 target span) (exprs scope args before).2).1]
      (.call callee args.length span :: Expr.walkAll before.visible args)
      (addExpr (.call none callee (exprs scope args before).1 target span) (exprs scope args before).2).2 :=
  (listed before).addExpr _ (.call none callee _ target span) (fun _ => map_read _) (List.append_nil _).symm
    (List.perm_append_singleton _ _)

include method

theorem Fills.pair (one : Fills scope first) (other : Fills scope second) (before : Draft) (access : Access) :
    Filled scope before ([(expr scope first before).1,(expr scope second (expr scope first before).2).1].map .expr)
      (first.walk before.visible access ++ second.walk before.visible .read)
      (expr scope second (expr scope first before).2).2 := by
  have parts := (one before access).append (other (expr scope first before).2 .read)
  rwa [(expr_draws scope method first before).visible] at parts

theorem Fills.callOn (inner : Fills scope receiver) (listed : FillsAll scope args) (callee : Ident)
    (target : Option MethodRef) (span : Span) (before : Draft) : Filled scope before
      [.expr (addExpr (.call (some (expr scope receiver before).1) callee
        (exprs scope args (expr scope receiver before).2).1 target span)
        (exprs scope args (expr scope receiver before).2).2).1]
      (receiver.walk before.visible .read ++ Expr.walkAll before.visible args)
      (addExpr (.call (some (expr scope receiver before).1) callee
        (exprs scope args (expr scope receiver before).2).1 target span)
        (exprs scope args (expr scope receiver before).2).2).2 := by
  have parts := (inner before .read).append (listed _)
  rw [(expr_draws scope method receiver before).visible] at parts
  exact parts.addPlain ((expr scope receiver before).1 :: _) (.call (some _) callee _ target span)
    (fun _ => map_read (_ :: _)) rfl rfl

end Parts

variable (scope) in
include method in
theorem expr_all_fills : (∀ e, Fills scope e) ∧ (∀ value, FillsOption scope value) ∧
    ∀ list, FillsAll scope list := by
  -- Drafting an expression changes nothing about the variables in force.
  have same (e : Expr) (before : Draft) : (expr scope e before).2.visible = before.visible :=
    (expr_draws scope method e before).visible
  have sameAll (list : List Expr) (before : Draft) : (exprs scope list before).2.visible = before.visible :=
    (exprs_draws scope method list before).visible
  have sameOption (value : Option Expr) (before : Draft) :
      (exprOption scope value before).2.visible = before.visible :=
    (exprOption_draws scope method value before).visible
  apply expr_induction
  case name => exact fun text span before _ => .leaf (.name text _ span) before (fun _ => rfl) rfl rfl
  case literal => exact fun kind value span before _ => .leaf (.literal kind value span) before (fun _ => rfl) rfl rfl
  case this => exact fun span before _ => .leaf (.this span) before (fun _ => rfl) rfl rfl
  case super => exact fun span before _ => .leaf (.super span) before (fun _ => rfl) rfl rfl
  case missing => exact fun span before _ => .leaf (.missing span) before (fun _ => rfl) rfl rfl
  case nameCall =>
    exact fun text place args span listed before _ => listed.bareCall ⟨text,place⟩ (scope.method? text) span before
  case thisFieldCall =>
    intro place name access args span listed before _
    have receiver : Filled scope before _ [.this place] _ := .leaf (.this place) before (fun _ => rfl) rfl rfl
    exact (receiver.append (listed _)).addPlain ((addExpr (.this place) before).1 :: _)
      (.call (some _) name _ (scope.method? name.text) span) (fun _ => map_read (_ :: _)) rfl rfl
  case fieldCall =>
    intro receiver name access args span other inner listed before _
    rw [expr_call_field scope args span other,Expr.walk_call_field args span other]
    exact inner.callOn method listed name none span before
  case thisCall =>
    exact fun place args span listed before _ => listed.bareCall ⟨"this",place⟩ none span before
  case superCall =>
    exact fun place args span listed before _ => listed.bareCall ⟨"super",place⟩ none span before
  case call =>
    intro callee args span unnamed inner listed before _
    rw [expr_call scope args span unnamed,Expr.walk_call args span unnamed]
    exact inner.callOn method listed ⟨"",.empty callee.span.stop⟩ none span before
  case create =>
    intro outer type args dims initializer body span first second third fourth before _
    have parts := (((first before).append (second _)).append (third _)).append (fourth _)
    simp only [sameOption,sameAll,← List.map_append] at parts
    have silent := anonymous_silent scope body
    refine parts.addPlain _ (.create _ type _ _ _ body (scope.constructor? type.text) span) (fun _ => map_read _) ?_ ?_
    · cases outer <;> simp [Expr.walk,Expr.walkOption,Visit.nameUse?,List.filterMap_cons,silent.1]
    · cases outer <;> simp [Expr.walk,Expr.walkOption,Visit.spelling?,List.filterMap_cons,silent.2]
  case field =>
    intro receiver name span inner before _
    exact (inner before .read).addPlain [_] (.field _ name span) (fun _ => rfl) rfl rfl
  case index =>
    intro array position span first second before _
    exact (first.pair method second before .read).addPlain _ (.index _ _ span) (fun _ => rfl) rfl rfl
  case unary =>
    intro op leading operand span inner before _
    exact (inner before _).addPlain [_] (.unary op leading _ span) (fun _ => rfl) rfl rfl
  case binary =>
    intro op left right span first second before _
    exact (first.pair method second before .read).addPlain _ (.binary op _ _ span) (fun _ => rfl) rfl rfl
  case instanceOf =>
    intro operand type span inner before _
    refine (inner before .read).addPlain [_] (.instanceOf _ type.text span) (fun _ => rfl) ?_ ?_
    · simp [Expr.walk,Visit.nameUse?]
    · simp [Expr.walk,Visit.spelling?]
  case assign =>
    intro op left right span first second before _
    exact (first.pair method second before _).addPlain _ (.assign op _ _ span) (fun _ => rfl) rfl rfl
  case conditional =>
    intro condition yes no span first second third before _
    have parts := (first.pair method second before .read).append (third _ .read)
    rw [same,same] at parts
    exact parts.addPlain [_,_,_] (.conditional _ _ _ span) (fun _ => rfl) rfl rfl
  case paren =>
    intro inside span inner before access
    exact (inner before access).addPlain [_] (.paren _ span) (fun _ => rfl) rfl rfl
  case arrayInit =>
    intro elements span listed before _
    exact (listed before).addPlain _ (.arrayInit _ span) (fun _ => map_read _) rfl rfl
  case nil => exact fun before => .nil before
  case cons =>
    intro first rest one others before
    have parts := (one before .read).append (others _)
    rwa [same] at parts
  case none => exact fun before => .nil before
  case some => exact fun value inner before => inner before .read

end Expressions

section Statements

variable (scope)

def StmtFills (s : Stmt) : Prop := ∀ before,
  Filled scope before [.stmt (stmt scope s before).1] (s.walk false before.sight) (stmt scope s before).2

def StmtsFill (list : List Stmt) : Prop := ∀ before,
  Filled scope before ((stmts scope list before).1.map .stmt) (Stmt.walkAll before.sight list)
    (stmts scope list before).2

def StmtOptionFills (value : Option Stmt) : Prop := ∀ before,
  Filled scope before ((stmtOption scope value before).1.toList.map .stmt)
    (Stmt.walkOption before.sight value) (stmtOption scope value before).2

def BlockFills (b : Block) : Prop := ∀ before,
  Filled scope before [.stmt (block scope b before).1] (b.walk before.sight) (block scope b before).2

def BlockOptionFills (value : Option Block) : Prop := ∀ before,
  Filled scope before ((blockOption scope value before).1.toList.map .stmt)
    (Block.walkOption before.sight value) (blockOption scope value before).2

def CatchFills (clause : Catch) : Prop := ∀ before,
  Filled scope before [.stmt (catchNode scope clause before).1.body] (clause.walk before.sight)
    (catchNode scope clause before).2

def CatchesFill (list : List Catch) : Prop := ∀ before,
  Filled scope before ((catchNodes scope list before).1.map fun clause => .stmt clause.body)
    (Catch.walkAll before.sight list) (catchNodes scope list before).2

variable {scope} (method : Method γ)

variable (scope) in
theorem leaving_silent (isLast : Bool) (span : Span) :
    (Java.leaving isLast span).filterMap (Visit.nameUse? scope) = [] ∧
      (Java.leaving isLast span).filterMap Visit.spelling? = [] := by
  cases isLast <;> exact ⟨rfl,rfl⟩

variable (scope) in
/-- Declaring a variable adds no entry. -/
theorem declare_filled (type : TypeRef) (name : Ident) (span : Span) (before : Draft) :
    Filled scope before [] [] (declare type name span before).2 where
  grown := ⟨fun _ _ same => same,fun _ _ same => same⟩
  known := nofun
  names := (List.append_nil _).symm
  spellings := .of_eq (List.append_nil _).symm
  reached := by
    intro body _ entries none
    rw [List.map_eq_nil_iff.mp none]
    exact .of_eq (List.append_nil _)

variable (scope) in
include method in
theorem declarators_fill (type : TypeRef) (list : List Declarator) (before : Draft) :
    Filled scope before (((declarators scope type list before).1.filterMap (·.value)).map .expr)
      (Declarator.walkAll before.sight type list) (declarators scope type list before).2 := by
  induction list generalizing before with
  | nil => exact .nil before
  | cons first rest ih =>
    have value := (expr_all_fills scope method).2.1 first.initializer before
    have same := (exprOption_draws scope method first.initializer before).sight
    have declared := declare_filled scope type first.name first.span
      (exprOption scope first.initializer before).2
    have all := (value.append declared).append (ih _)
    rw [declare_sight,same,List.append_nil,List.append_nil,← List.map_append] at all
    have parts : (declarators scope type (first :: rest) before).1.filterMap (·.value) =
        (exprOption scope first.initializer before).1.toList ++ ((declarators scope type rest
          (declare type first.name first.span (exprOption scope first.initializer before).2).2).1.filterMap (·.value)) := by
      change (LocalInit.mk _ (exprOption scope first.initializer before).1 :: _).filterMap (·.value) = _
      cases (exprOption scope first.initializer before).1 <;> rfl
    rw [parts]
    exact all.congr rfl rfl

variable (scope) in
include method in
theorem stmt_all_fills : (∀ s, StmtFills scope s) ∧ (∀ value, BlockOptionFills scope value) ∧
    (∀ b, BlockFills scope b) ∧ (∀ list, StmtsFill scope list) ∧ (∀ list, CatchesFill scope list) ∧
    (∀ clause, CatchFills scope clause) ∧ ∀ value, StmtOptionFills scope value := by
  obtain ⟨values,options,lists⟩ := expr_all_fills scope method
  obtain ⟨drawn,drawnBlockOption,drawnBlock,drawnAll,drawnCatches,drawnCatch,drawnOption⟩ :=
    @stmt_all_draws _ _ scope method
  have same (e : Expr) (before : Draft) : (expr scope e before).2.sight = before.sight :=
    (expr_draws scope method e before).sight
  have sameAll (list : List Expr) (before : Draft) : (exprs scope list before).2.sight = before.sight :=
    (exprs_draws scope method list before).sight
  have sameOption (value : Option Expr) (before : Draft) : (exprOption scope value before).2.sight = before.sight :=
    (exprOption_draws scope method value before).sight
  apply Stmt.induction_all
  case declare =>
    intro type list span before
    exact (declarators_fill scope method type list before).addStmt (.declare _ span) rfl rfl rfl
  case expr =>
    intro value span before
    exact (values value before .read).addStmt (.expr _ span) rfl rfl rfl
  case returns =>
    intro value span before
    have silent := leaving_silent scope false span
    refine (options value before).addStmt (.returns _ span) rfl ?_ ?_
    · simp [silent.1,Draft.sight]
    · simp [silent.2,Draft.sight]
  case throws =>
    intro value span before
    have silent := leaving_silent scope false span
    refine (values value before .read).addStmt (.throws _ span) rfl ?_ ?_
    · simp [silent.1,Draft.sight]
    · simp [silent.2,Draft.sight]
  case ifElse =>
    intro condition yes no span first second before
    have parts := ((values condition before .read).append (first _)).append (second _)
    have behind := (drawn yes (expr scope condition before).2).sight
    rw [behind,same] at parts
    exact parts.addStmt (.ifElse _ _ _ span) rfl rfl rfl
  case whileLoop =>
    intro condition body span inner before
    have parts := (values condition before .read).append (inner _)
    rw [same] at parts
    exact parts.addStmt (.whileLoop _ _ span) rfl rfl rfl
  case forLoop =>
    intro init condition update body span first inner before
    have parts := (((first before).append (options condition _)).append (lists update _)).append (inner _)
    have opened := (drawnAll init before).sight
    have asked := sameOption condition (stmts scope init before).2
    have visible := congrArg Sight.visible asked
    have sight := congrArg Sight.visible opened
    rw [sameAll,asked,opened] at parts
    simp only [Draft.sight] at visible sight
    rw [visible,sight] at parts
    refine (parts.outside before.visible).addStmt (.forLoop _ _ _ _ span) ?_ rfl rfl
    simp [StmtNode.parts]
  case forEach =>
    intro element iterable body span inner before
    have declared := declare_filled scope element.type element.name element.span
      (expr scope iterable before).2
    have parts := ((values iterable before .read).append declared).append (inner _)
    rw [declare_sight,same] at parts
    refine (parts.outside (expr scope iterable before).2.visible).addStmt (.forEach _ _ _ span) rfl ?_ ?_
    · simp [Param.visits,Visit.nameUse?,List.filterMap_cons,Draft.sight]
    · simp [Param.visits,Visit.spelling?,List.filterMap_cons,Draft.sight]
  case tryCatch =>
    intro body catches cleanup span first second third before
    have parts := ((first before).append (second _)).append (third _)
    have caught := (drawnCatches catches (block scope body before).2).2
    have tried := (drawnBlock body before).sight
    rw [caught,tried] at parts
    refine parts.addStmt (.tryCatch _ _ _ span) rfl ?_ ?_
    · simp [Visit.nameUse?,List.filterMap_cons,Stmt.after]
    · simp [Visit.spelling?,List.filterMap_cons,Stmt.after]
  case block => exact fun body inner => inner
  case breaks => exact fun span before => (Filled.nil before).addStmt (.breaks span) rfl rfl rfl
  case continues => exact fun span before => (Filled.nil before).addStmt (.continues span) rfl rfl rfl
  case empty => exact fun span before => (Filled.nil before).addStmt (.empty span) rfl rfl rfl
  case unsupported => exact fun span before => (Filled.nil before).addStmt (.unsupported span) rfl rfl rfl
  case statements =>
    intro list span inner before
    exact ((inner before).outside before.visible).addStmt (.block _ span) rfl rfl rfl
  case clause =>
    intro param body span inner before
    have declared := declare_filled scope param.type param.name param.span before
    have parts := declared.append (inner _)
    rw [declare_sight] at parts
    exact (parts.outside before.visible).congr rfl rfl
  case noStmt => exact fun before => .nil before
  case someStmt => exact fun value inner before => inner before
  case nil => exact fun before => .nil before
  case cons =>
    intro first rest one others before
    have parts := (one before).append (others _)
    rw [(drawn first before).sight] at parts
    exact parts
  case noClause => exact fun before => .nil before
  case clauses =>
    intro first rest one others before
    have parts := (one before).append (others _)
    rw [(drawnCatch first before).2] at parts
    exact parts
  case noBlock => exact fun before => .nil before
  case someBlock => exact fun value inner before => inner before

end Statements

end Drafting

namespace Body

open Drafting

/-- All entries that are inside a body; the body itself is entered last. -/
def parts (body : Body) : List StmtPart :=
  (List.range body.root).map .stmt ++ (List.range body.exprs.size).map .expr

/-- The statements at the top as they are looked at. -/
def atTop : List StmtId → List Entry
  | [] => []
  | [last] => [.stmt last true]
  | id :: rest => .stmt id false :: atTop rest

theorem atTop_parts (ids : List StmtId) : (atTop ids).map Entry.part = ids.map .stmt := by
  induction ids with
  | nil => rfl
  | cons id rest ih =>
    cases rest with
    | nil => rfl
    | cons second rest => exact congrArg _ ih

theorem topEntries_eq (body : Body) (ids : List StmtId) :
    body.topEntries ids = (atTop ids).flatMap body.entriesOf := by
  induction ids with
  | nil => rfl
  | cons id rest ih =>
    cases rest with
    | nil => simp [topEntries,atTop,entriesOf]
    | cons second rest =>
      simp only [topEntries,atTop] at ih ⊢
      rw [List.flatMap_cons,← ih]
      rfl

/-- Only the last statement at the top may leave the body. -/
theorem isLast_of_atTop {ids : List StmtId} {id : StmtId} (member : .stmt id true ∈ atTop ids) :
    ids.getLast? = some id := by
  induction ids with
  | nil => cases member
  | cons first rest ih =>
    cases rest with
    | nil =>
      cases List.mem_singleton.mp member
      rfl
    | cons second rest =>
      rcases List.mem_cons.mp member with same | later
      · cases same
      · rw [List.getLast?_cons_cons]
        exact ih later

theorem atTop_of_last {ids : List StmtId} {id : StmtId} (last : ids.getLast? = some id) :
    .stmt id true ∈ atTop ids := by
  induction ids with
  | nil => cases last
  | cons first rest ih =>
    cases rest with
    | nil =>
      cases last
      exact List.mem_singleton_self _
    | cons second rest =>
      rw [List.getLast?_cons_cons] at last
      exact List.mem_cons_of_mem _ (ih last)

variable {β γ : Type} (scope : Scope β) (block : Java.Block) (method : Method γ)

include method in
theorem ofBlock_filled : Filled scope ⟨#[],#[],#[],[]⟩ ((topIds scope block).map .stmt)
    (Stmt.walkAll .start block.statements) (topDraft scope block) :=
  (stmt_all_fills scope method).2.2.2.1 block.statements ⟨#[],#[],#[],[]⟩

include method in
/-- The names in the table are those met on the way, in the same order and with what they stand for. -/
theorem ofBlock_names : (ofBlock scope block).exprs.toList.filterMap ExprNode.nameUse? =
    block.visits.filterMap (Visit.nameUse? scope) := by
  rw [Java.Block.visits,Stmt.walkTop_filterMap _ fun _ => rfl,ofBlock_eq]
  exact (ofBlock_filled scope block method).names

include method in
theorem ofBlock_spellings : ((ofBlock scope block).exprs.toList.filterMap ExprNode.spelling?).Perm
    (block.visits.filterMap Visit.spelling?) := by
  rw [Java.Block.visits,Stmt.walkTop_filterMap _ fun _ => rfl,ofBlock_eq]
  exact (ofBlock_filled scope block method).spellings

include method in
/-- From the statements at the top each entry is reached once. -/
theorem ofBlock_entries : (((ofBlock scope block).topEntries (ofBlock scope block).statements).map
    Entry.part).Perm (ofBlock scope block).parts := by
  rw [ofBlock_statements,topEntries_eq]
  have reached := (ofBlock_filled scope block method).reached _ (ofBlock_holds scope block)
    (atTop (topIds scope block)) (atTop_parts _)
  rw [ofBlock_eq] at reached ⊢
  exact reached

end Body
end Transplant
