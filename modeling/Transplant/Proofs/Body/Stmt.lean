import Transplant.Proofs.Body.Expr

/-! What drafting statements leaves in the tables: beside the findings, the variables that are
declared on the way and those that are in force behind. -/
namespace Transplant

open Java (Ident TypeRef Param Expr Declarator Stmt Block Catch)

namespace Method

variable {γ : Type} (method : Method γ)

/-- The findings of a part of a statement. -/
def partFindings (body : Body) : StmtPart → List Finding
  | .expr value => method.exprFindings body .read value
  | .stmt inner => method.stmtFindings body false inner

/-- The findings of a statement whose parts have smaller numbers. -/
theorem stmtFindings_eq {body : Body} {id : StmtId} {node : StmtNode} (isLast : Bool)
    (found : body.stmts[id]? = some node) (small : ∀ inner, .stmt inner ∈ node.parts → inner < id) :
    method.stmtFindings body isLast id =
      leavingFindings isLast node ++ node.parts.flatMap (method.partFindings body) := by
  rw [stmtFindings,found]
  simp only
  congr 1
  apply List.flatMap_congr
  intro part member
  cases part with
  | expr value => rfl
  | stmt inner => simp only [if_pos (small inner member),partFindings]

end Method

/-- Expressions declare nothing. -/
theorem Java.Expr.walk_declares_none : (∀ (e : Expr) (visible : Locals) (access : Access),
      (e.walk visible access).filterMap Visit.declared? = []) ∧
    (∀ (value : Option Expr) (visible : Locals),
      (Expr.walkOption visible value).filterMap Visit.declared? = []) ∧
    ∀ (list : List Expr) (visible : Locals), (Expr.walkAll visible list).filterMap Visit.declared? = [] := by
  have inside (body : Option Span) :
      (body.toList.map Visit.anonymous).filterMap Visit.declared? = [] := by
    cases body <;> rfl
  suffices all : ∀ visible, (∀ (access : Access) (e : Expr),
      (e.walk visible access).filterMap Visit.declared? = []) ∧
    (∀ value : Option Expr, (Expr.walkOption visible value).filterMap Visit.declared? = []) ∧
    ∀ list : List Expr, (Expr.walkAll visible list).filterMap Visit.declared? = [] from
    ⟨fun e visible access => (all visible).1 access e,fun value visible => (all visible).2.1 value,
      fun list visible => (all visible).2.2 list⟩
  intro visible
  apply Expr.walk.mutual_induct
  all_goals intros
  all_goals simp_all only [Expr.walk,Expr.walkAll,Expr.walkOption,List.filterMap_append,List.filterMap_nil,
    List.append_nil,Visit.declared?,List.filterMap_cons]

def Draft.sight (draft : Draft) : Sight := ⟨draft.visible,draft.locals.size⟩

namespace Drafting

variable {β γ : Type} (scope : Scope β) (method : Method γ)

/-- What drafting the parts of a statement does: what they show, what they declare and what is in
force behind them. -/
structure Drafted (found : List Finding) (declared : List Local) (before : Draft)
    (parts : List StmtPart) (after : Draft) : Prop where
  grown : Extends before after
  small : ∀ inner, .stmt inner ∈ parts → inner < after.stmts.size
  locals : after.locals.toList = before.locals.toList ++ declared
  shown : ∀ body, Holds body after →
    (parts.flatMap (method.partFindings body)).map Finding.erase = found

variable {scope method} {before middle after : Draft} {found more : List Finding}
  {declared others : List Local} {parts rest : List StmtPart}

theorem Drafted.nil (draft : Draft) : Drafted method [] [] draft [] draft :=
  ⟨.refl draft,by simp,by simp,fun _ _ => rfl⟩

theorem Drafted.append (first : Drafted method found declared before parts middle)
    (second : Drafted method more others middle rest after) :
    Drafted method (found ++ more) (declared ++ others) before (parts ++ rest) after where
  grown := first.grown.trans second.grown
  small := by
    intro inner member
    rcases List.mem_append.mp member with early | late
    · have bound := first.small inner early
      have held := second.grown.stmts inner _ (Array.getElem?_eq_getElem bound)
      exact (Array.getElem?_eq_some_iff.mp held).1
    · exact second.small inner late
  locals := by rw [second.locals,first.locals,List.append_assoc]
  shown := by
    intro body holds
    rw [List.flatMap_append,List.map_append,first.shown body (holds.of_extends second.grown),
      second.shown body holds]

theorem Drafted.congr (drafted : Drafted method found declared before parts after)
    (shows : found = more) (declares : declared = others) :
    Drafted method more others before parts after := by
  subst shows declares
  exact drafted

/-- What is in force is no part of the tables. -/
theorem Drafted.outside (drafted : Drafted method found declared before parts after) (visible : Locals) :
    Drafted method found declared before parts { after with visible := visible } where
  grown := ⟨drafted.grown.exprs,drafted.grown.stmts⟩
  small := drafted.small
  locals := drafted.locals
  shown := fun body holds => drafted.shown body ⟨holds.exprs,holds.stmts⟩

theorem DrawnParts.drafted {list : List Expr} {ids : List ExprId}
    (drawn : DrawnParts scope method (list.map (·,.read)) before ids after) :
    Drafted method ((Expr.walkAll before.visible list).flatMap (Visit.findings scope method)) [] before
      (ids.map .expr) after where
  grown := drawn.grown
  small := by simp
  locals := by simp [drawn.locals]
  shown := by
    intro body holds
    have shown := drawn.shown body holds
    rw [drawn.zip_read,walkParts_read,List.flatMap_map] at shown
    rw [List.flatMap_map]
    exact shown

theorem Drawn.drafted {e : Expr} {drawn : ExprId × Draft} (given : Drawn scope method e before drawn) :
    Drafted method ((e.walk before.visible .read).flatMap (Visit.findings scope method)) [] before
      [.expr drawn.1] drawn.2 := by
  have all : DrawnParts scope method ([e].map (·,.read)) before [drawn.1] drawn.2 := given.part .read
  simpa [Expr.walkAll] using all.drafted

variable (method) in
theorem declare_drafted (type : TypeRef) (name : Ident) (span : Span) (draft : Draft) :
    Drafted method [] [⟨type,name,span⟩] draft [] (declare type name span draft).2 where
  grown := ⟨fun _ _ same => same,fun _ _ same => same⟩
  small := by simp
  locals := by simp [declare,modifyGet,MonadStateOf.modifyGet,StateT.modifyGet,pure]
  shown := fun _ _ => rfl

theorem declare_sight (type : TypeRef) (name : Ident) (span : Span) (draft : Draft) :
    (declare type name span draft).2.sight = draft.sight.declare name := by
  simp [declare,modifyGet,MonadStateOf.modifyGet,StateT.modifyGet,pure,Draft.sight,Sight.declare]

theorem DrawnParts.sight {parts : List (Expr × Access)} {ids : List ExprId}
    (drawn : DrawnParts scope method parts before ids after) : after.sight = before.sight := by
  simp [Draft.sight,drawn.visible,drawn.locals]

theorem Drawn.sight {e : Expr} {drawn : ExprId × Draft} (given : Drawn scope method e before drawn) :
    drawn.2.sight = before.sight := by
  simp [Draft.sight,given.visible,given.locals]

variable (scope method) in
theorem exprOption_drafted (value : Option Expr) (before : Draft) :
    Drafted method ((Expr.walkOption before.visible value).flatMap (Visit.findings scope method)) []
      before ((exprOption scope value before).1.toList.map .expr) (exprOption scope value before).2 := by
  have drawn := (exprOption_draws scope method value before).drafted
  rwa [walkAll_toList] at drawn

variable (scope method) in
theorem declarators_drafted (type : TypeRef) (list : List Declarator) (before : Draft) :
    let drawn := declarators scope type list before
    Drafted method ((Declarator.walkAll before.sight type list).flatMap (Visit.findings scope method))
      ((Declarator.walkAll before.sight type list).filterMap Visit.declared?) before
      ((drawn.1.filterMap (·.value)).map .expr) drawn.2 ∧
    drawn.2.sight = Declarator.afterAll before.sight list := by
  induction list generalizing before with
  | nil => exact ⟨.nil before,rfl⟩
  | cons first rest ih =>
    have value := exprOption_drafted scope method first.initializer before
    have same := (exprOption_draws scope method first.initializer before).sight
    obtain ⟨others,behind⟩ := ih (declare type first.name first.span (exprOption scope first.initializer before).2).2
    rw [declare_sight,same] at others behind
    refine ⟨?_,behind⟩
    have all := (value.append (declare_drafted method type first.name first.span _)).append others
    simp only [List.append_nil,List.nil_append] at all
    have parts : ((declarators scope type (first :: rest) before).1.filterMap (·.value)).map StmtPart.expr =
        (exprOption scope first.initializer before).1.toList.map .expr ++
          ((declarators scope type rest (declare type first.name first.span
            (exprOption scope first.initializer before).2).2).1.filterMap (·.value)).map .expr := by
      change ((LocalInit.mk _ (exprOption scope first.initializer before).1 :: _).filterMap (·.value)).map _ = _
      cases (exprOption scope first.initializer before).1 <;> rfl
    rw [parts]
    have declares : (Declarator.walkAll before.sight type (first :: rest)).filterMap Visit.declared? =
        [⟨type,first.name,first.span⟩] ++
          (Declarator.walkAll (before.sight.declare first.name) type rest).filterMap Visit.declared? := by
      simp [Declarator.walkAll,Visit.declared?,Java.Expr.walk_declares_none.2.1]
    have shows : (Declarator.walkAll before.sight type (first :: rest)).flatMap
        (Visit.findings scope method) =
        (Expr.walkOption before.visible first.initializer).flatMap (Visit.findings scope method) ++
          (Declarator.walkAll (before.sight.declare first.name) type rest).flatMap
            (Visit.findings scope method) := by
      simp [Declarator.walkAll,Visit.findings,Draft.sight]
    rw [declares,shows]
    exact all

/-- A value that is returned is found under the number of the node. -/
def Returns (draft : Draft) : Option (Option ExprId) → Option (Option Expr) → Prop
  | some (some id),some (some e) => ∃ node, draft.exprs[id]? = some node ∧ node.span = e.span
  | some none,some none => True
  | none,none => True
  | _,_ => False

theorem Returns.mono {given : Option (Option ExprId)} {meant : Option (Option Expr)}
    (returns : Returns before given meant) (grown : Extends before after) : Returns after given meant := by
  match given,meant,returns with
  | some (some _),some (some _),⟨node,found,span⟩ => exact ⟨node,grown.exprs _ _ found,span⟩
  | some none,some none,_ => trivial
  | none,none,_ => trivial

end Drafting

/-- The value of a `return`, if the statement is one. -/
def StmtNode.value? : StmtNode → Option (Option ExprId)
  | .returns value _ => some value
  | _ => none

def Java.Stmt.value? : Stmt → Option (Option Expr)
  | .returns value _ => some value
  | _ => none

namespace Drafting

variable {β γ : Type} (scope : Scope β) (method : Method γ)

structure StmtDrawn (s : Stmt) (before : Draft) (drawn : StmtId × Draft) : Prop where
  grown : Extends before drawn.2
  sight : drawn.2.sight = s.after before.sight
  locals : drawn.2.locals.toList =
    before.locals.toList ++ (s.walk false before.sight).filterMap Visit.declared?
  node : ∃ node, drawn.2.stmts[drawn.1]? = some node ∧ node.span = s.span ∧
    Returns drawn.2 node.value? s.value?
  shown : ∀ body, Holds body drawn.2 → ∀ isLast,
    (method.stmtFindings body isLast drawn.1).map Finding.erase =
      (s.walk isLast before.sight).flatMap (Visit.findings scope method)

/-- Drafting statements one after the other. -/
structure StmtsDrawn (list : List Stmt) (before : Draft) (ids : List StmtId) (after : Draft) : Prop where
  drafted : Drafted method ((Stmt.walkAll before.sight list).flatMap (Visit.findings scope method))
    ((Stmt.walkAll before.sight list).filterMap Visit.declared?) before (ids.map .stmt) after
  sight : after.sight = Stmt.afterAll before.sight list
  nodes : List.Forall₂ (fun id s => ∃ node, after.stmts[id]? = some node ∧ node.span = s.span ∧
    Returns after node.value? s.value?) ids list
  top : ∀ body, Holds body after → (method.topFindings body ids).map Finding.erase =
    (Stmt.walkTop before.sight list).flatMap (Visit.findings scope method)

variable {scope method} {before middle after : Draft} {found more : List Finding}
  {declared others : List Local} {parts rest : List StmtPart} {s : Stmt}

theorem addStmt_extends (node : StmtNode) (draft : Draft) : Extends draft (addStmt node draft).2 :=
  ⟨fun _ _ found => found,fun _ _ found => getElem?_push_of_some node found⟩

theorem addStmt_found (node : StmtNode) (draft : Draft) :
    (addStmt node draft).2.stmts[(addStmt node draft).1]? = some node := by
  change (draft.stmts.push node)[draft.stmts.size]? = some node
  simp

/-- A statement is added behind its parts. -/
theorem addStmt_drawn {node : StmtNode} (drafted : Drafted method found declared before node.parts middle)
    (span : node.span = s.span) (returns : Returns middle node.value? s.value?)
    (sight : middle.sight = s.after before.sight)
    (locals : declared = (s.walk false before.sight).filterMap Visit.declared?)
    (shown : ∀ isLast, (Method.leavingFindings isLast node).map Finding.erase ++ found =
      (s.walk isLast before.sight).flatMap (Visit.findings scope method)) :
    StmtDrawn scope method s before (addStmt node middle) where
  grown := drafted.grown.trans (addStmt_extends node middle)
  sight := sight
  locals := by
    rw [← locals]
    exact drafted.locals
  node := ⟨node,addStmt_found node middle,span,returns.mono (addStmt_extends node middle)⟩
  shown := by
    intro body holds isLast
    have held := holds.of_extends (addStmt_extends node middle)
    have entry := holds.stmts _ _ (addStmt_found node middle)
    rw [method.stmtFindings_eq isLast entry drafted.small,List.map_append,drafted.shown body held]
    exact shown isLast

def StmtDraws (scope : Scope β) (method : Method γ) (s : Stmt) : Prop :=
  ∀ before, StmtDrawn scope method s before (stmt scope s before)

theorem declare_draws (type : TypeRef) (list : List Declarator) (span : Span) :
    StmtDraws scope method (.declare type list span) := by
  intro before
  obtain ⟨drafted,sight⟩ := declarators_drafted scope method type list before
  exact addStmt_drawn drafted rfl trivial sight rfl fun _ => rfl

theorem expr_stmt_draws (value : Expr) (span : Span) : StmtDraws scope method (.expr value span) := by
  intro before
  have drawn := expr_draws scope method value before
  refine addStmt_drawn drawn.drafted rfl trivial drawn.sight ?_ ?_
  · simp [Java.Expr.walk_declares_none.1]
  · simp [Method.leavingFindings,Draft.sight]

variable (scope method) in
theorem leaving_findings (isLast : Bool) (span : Span) :
    (if isLast then [] else [Finding.interruption span]).map Finding.erase =
      (Java.leaving isLast span).flatMap (Visit.findings scope method) := by
  cases isLast <;> simp [Java.leaving,Finding.erase,Visit.findings]

theorem leaving_declares (isLast : Bool) (span : Span) :
    (Java.leaving isLast span).filterMap Visit.declared? = [] := by
  cases isLast <;> simp [Java.leaving,Visit.declared?]

theorem returns_draws (value : Option Expr) (span : Span) :
    StmtDraws scope method (.returns value span) := by
  intro before
  have drawn := exprOption_draws scope method value before
  refine addStmt_drawn (exprOption_drafted scope method value before) rfl ?_ drawn.sight ?_ ?_
  · cases value with
    | none => trivial
    | some value =>
      obtain ⟨node,entry,span,_⟩ := (expr_draws scope method value before).node
      exact ⟨node,entry,span⟩
  · simp [Java.Expr.walk_declares_none.2.1,leaving_declares]
  · intro isLast
    simp only [Method.leavingFindings,leaving_findings scope method,Stmt.walk,
      List.flatMap_append]
    rfl

theorem throws_draws (value : Expr) (span : Span) : StmtDraws scope method (.throws value span) := by
  intro before
  have drawn := expr_draws scope method value before
  refine addStmt_drawn drawn.drafted rfl trivial drawn.sight ?_ ?_
  · simp [Java.Expr.walk_declares_none.1,leaving_declares]
  · intro isLast
    simp only [Method.leavingFindings,leaving_findings scope method,Stmt.walk,
      List.flatMap_append]
    rfl

theorem StmtDrawn.drafted {drawn : StmtId × Draft} (given : StmtDrawn scope method s before drawn) :
    Drafted method ((s.walk false before.sight).flatMap (Visit.findings scope method))
      ((s.walk false before.sight).filterMap Visit.declared?) before [.stmt drawn.1] drawn.2 where
  grown := given.grown
  small := by
    obtain ⟨_,found,_⟩ := given.node
    simpa using (Array.getElem?_eq_some_iff.mp found).1
  locals := given.locals
  shown := by
    intro body holds
    simpa [Method.partFindings] using given.shown body holds false

section

variable (scope method)

def StmtsDraw (list : List Stmt) : Prop := ∀ before,
  StmtsDrawn scope method list before (stmts scope list before).1 (stmts scope list before).2

def StmtOptionDraws (value : Option Stmt) : Prop := ∀ before,
  Drafted method ((Stmt.walkOption before.sight value).flatMap (Visit.findings scope method))
    ((Stmt.walkOption before.sight value).filterMap Visit.declared?) before
    ((stmtOption scope value before).1.toList.map .stmt) (stmtOption scope value before).2 ∧
  (stmtOption scope value before).2.sight = Stmt.afterOption before.sight value

def BlockDraws (inner : Block) : Prop := ∀ before,
  StmtDrawn scope method (.block inner) before (block scope inner before)

def BlockOptionDraws (value : Option Block) : Prop := ∀ before,
  Drafted method ((Block.walkOption before.sight value).flatMap (Visit.findings scope method))
    ((Block.walkOption before.sight value).filterMap Visit.declared?) before
    ((blockOption scope value before).1.toList.map .stmt) (blockOption scope value before).2 ∧
  (blockOption scope value before).2.sight = Block.afterOption before.sight value

def CatchDraws (clause : Catch) : Prop := ∀ before,
  Drafted method ((clause.walk before.sight).flatMap (Visit.findings scope method))
    ((clause.walk before.sight).filterMap Visit.declared?) before
    [.stmt (catchNode scope clause before).1.body] (catchNode scope clause before).2 ∧
  (catchNode scope clause before).2.sight = clause.after before.sight

def CatchesDraw (list : List Catch) : Prop := ∀ before,
  Drafted method ((Catch.walkAll before.sight list).flatMap (Visit.findings scope method))
    ((Catch.walkAll before.sight list).filterMap Visit.declared?) before
    ((catchNodes scope list before).1.map fun clause => .stmt clause.body)
    (catchNodes scope list before).2 ∧
  (catchNodes scope list before).2.sight = Catch.afterAll before.sight list

end

theorem ifElse_draws (condition : Expr) (yes : Stmt) (no : Option Stmt) (span : Span)
    (first : StmtDraws scope method yes) (second : StmtOptionDraws scope method no) :
    StmtDraws scope method (.ifElse condition yes no span) := by
  intro before
  have asked := expr_draws scope method condition before
  have taken := first (expr scope condition before).2
  obtain ⟨other,behind⟩ := second (stmt scope yes (expr scope condition before).2).2
  have all := asked.drafted.append (taken.drafted.append other)
  rw [taken.sight,asked.sight] at all behind
  refine addStmt_drawn all rfl trivial behind ?_ ?_
  · simp [Java.Expr.walk_declares_none.1]
  · simp [Method.leavingFindings,Draft.sight]

theorem whileLoop_draws (condition : Expr) (body : Stmt) (span : Span)
    (inner : StmtDraws scope method body) : StmtDraws scope method (.whileLoop condition body span) := by
  intro before
  have asked := expr_draws scope method condition before
  have repeated := inner (expr scope condition before).2
  have all := asked.drafted.append repeated.drafted
  have behind := repeated.sight
  rw [asked.sight] at all behind
  refine addStmt_drawn all rfl trivial behind ?_ ?_
  · simp [Java.Expr.walk_declares_none.1]
  · simp [Method.leavingFindings,Draft.sight]

theorem forLoop_draws (init : List Stmt) (condition : Option Expr) (update : List Expr) (body : Stmt)
    (span : Span) (first : StmtsDraw scope method init) (inner : StmtDraws scope method body) :
    StmtDraws scope method (.forLoop init condition update body span) := by
  intro before
  have opened := first before
  have asked := exprOption_drafted scope method condition (stmts scope init before).2
  have askedSight := (exprOption_draws scope method condition
    (stmts scope init before).2).sight
  have stepped := exprs_draws scope method update
    (exprOption scope condition (stmts scope init before).2).2
  have repeated := inner (exprs scope update (exprOption scope condition (stmts scope init before).2).2).2
  have visible := congrArg Sight.visible askedSight
  have sight := congrArg Sight.visible opened.sight
  have all := ((opened.drafted.append asked).append stepped.drafted).append repeated.drafted
  have behind := repeated.sight
  rw [stepped.sight,askedSight,opened.sight] at all behind
  simp only [Draft.sight] at visible sight
  rw [visible,sight] at all
  refine addStmt_drawn (all.outside before.visible) rfl trivial ?_ ?_ ?_
  · exact congrArg (Sight.outside before.sight) behind
  · simp [Java.Expr.walk_declares_none.2.1,Java.Expr.walk_declares_none.2.2,Draft.sight]
  · simp [Method.leavingFindings,Draft.sight]

theorem forEach_draws (element : Param) (iterable : Expr) (body : Stmt) (span : Span)
    (inner : StmtDraws scope method body) :
    StmtDraws scope method (.forEach element iterable body span) := by
  intro before
  have asked := expr_draws scope method iterable before
  have declared := declare_drafted method element.type element.name element.span
    (expr scope iterable before).2
  have repeated := inner (declare element.type element.name element.span (expr scope iterable before).2).2
  have all := (asked.drafted.append declared).append repeated.drafted
  have behind := repeated.sight
  rw [declare_sight,asked.sight] at all behind
  refine addStmt_drawn (all.outside _) rfl trivial ?_ ?_ ?_
  · exact congrArg₂ Sight.outside asked.sight behind
  · simp [Param.visits,Java.Expr.walk_declares_none.1,Visit.declared?,List.filterMap_cons]
  · simp [Param.visits,Method.leavingFindings,Draft.sight,Visit.findings]

theorem tryCatch_draws (body : Block) (catches : List Catch) (cleanup : Option Block) (span : Span)
    (first : BlockDraws scope method body) (second : CatchesDraw scope method catches)
    (third : BlockOptionDraws scope method cleanup) :
    StmtDraws scope method (.tryCatch body catches cleanup span) := by
  intro before
  have tried := first before
  obtain ⟨caught,caughtSight⟩ := second (block scope body before).2
  obtain ⟨last,behind⟩ := third (catchNodes scope catches (block scope body before).2).2
  have all := (tried.drafted.append caught).append last
  rw [caughtSight,tried.sight] at all behind
  refine addStmt_drawn all rfl trivial behind ?_ ?_
  · simp [Stmt.after,Visit.declared?,List.filterMap_cons]
  · simp [Stmt.after,Method.leavingFindings,Visit.findings]

theorem block_draws (list : List Stmt) (span : Span) (inner : StmtsDraw scope method list) :
    BlockDraws scope method ⟨list,span⟩ := by
  intro before
  have drawn := inner before
  refine addStmt_drawn (drawn.drafted.outside before.visible) rfl trivial ?_ ?_ ?_
  · exact congrArg (Sight.outside before.sight) drawn.sight
  · simp [Block.walk]
  · simp [Block.walk,Method.leavingFindings]

theorem catch_draws (param : Param) (body : Block) (span : Span) (inner : BlockDraws scope method body) :
    CatchDraws scope method ⟨param,body,span⟩ := by
  intro before
  have declared := declare_drafted method param.type param.name param.span before
  have handled := inner (declare param.type param.name param.span before).2
  have all := declared.append handled.drafted
  have behind := handled.sight
  rw [declare_sight] at all behind
  refine ⟨(all.outside before.visible).congr ?_ ?_,congrArg (Sight.outside before.sight) behind⟩
  · simp [Catch.walk,Param.visits,Stmt.walk,Visit.findings]
  · simp [Catch.walk,Param.visits,Stmt.walk,Visit.declared?,List.filterMap_cons]

theorem stmts_nil_draw : StmtsDraw scope method [] :=
  fun before => ⟨.nil before,rfl,.nil,fun _ _ => rfl⟩

theorem stmts_cons_draw (first : Stmt) (rest : List Stmt) (one : StmtDraws scope method first)
    (others : StmtsDraw scope method rest) : StmtsDraw scope method (first :: rest) := by
  intro before
  have head := one before
  have tail := others (stmt scope first before).2
  obtain ⟨node,found,span,returns⟩ := head.node
  have all := head.drafted.append tail.drafted
  have top := tail.top
  have sight := tail.sight
  rw [head.sight] at all top sight
  refine ⟨all.congr ?_ ?_,sight,.cons ⟨node,tail.drafted.grown.stmts _ _ found,span,
    returns.mono tail.drafted.grown⟩ tail.nodes,?_⟩
  · simp [Stmt.walkAll]
  · simp [Stmt.walkAll]
  intro body holds
  have shown := head.shown body (holds.of_extends tail.drafted.grown)
  cases rest with
  | nil => exact shown true
  | cons second rest =>
    calc (method.topFindings body (stmts scope (first :: second :: rest) before).1).map Finding.erase
        = (method.stmtFindings body false (stmt scope first before).1).map Finding.erase ++
            (method.topFindings body
              (stmts scope (second :: rest) (stmt scope first before).2).1).map Finding.erase :=
          List.map_append
      _ = (Stmt.walkTop before.sight (first :: second :: rest)).flatMap
            (Visit.findings scope method) := by
          rw [shown false,top body holds,← List.flatMap_append]
          rfl

theorem stmt_all_draws : (∀ s, StmtDraws scope method s) ∧ (∀ value, BlockOptionDraws scope method value) ∧
    (∀ block, BlockDraws scope method block) ∧ (∀ list, StmtsDraw scope method list) ∧
    (∀ list, CatchesDraw scope method list) ∧ (∀ clause, CatchDraws scope method clause) ∧
    ∀ value, StmtOptionDraws scope method value := by
  have leaf (s : Stmt) (node : StmtNode) (drafted : stmt scope s = addStmt node)
      (alone : node.parts = []) (span : node.span = s.span) (returns : node.value? = none ∧ s.value? = none)
      (after : ∀ sight, s.after sight = sight)
      (silent : ∀ sight, (s.walk false sight).filterMap Visit.declared? = [])
      (shown : ∀ isLast sight, (Method.leavingFindings isLast node).map Finding.erase =
        (s.walk isLast sight).flatMap (Visit.findings scope method)) : StmtDraws scope method s := by
    intro before
    rw [drafted]
    have nothing : Drafted method [] [] before node.parts before := by
      rw [alone]
      exact .nil before
    refine addStmt_drawn nothing span ?_ (after _).symm (silent _).symm ?_
    · rw [returns.1,returns.2]
      trivial
    · intro isLast
      rw [List.append_nil,shown]
  refine Stmt.induction_all declare_draws expr_stmt_draws returns_draws throws_draws ifElse_draws whileLoop_draws
    forLoop_draws forEach_draws tryCatch_draws ?block ?breaks ?continues ?empty ?unsupported block_draws catch_draws
    ?noStmt ?someStmt stmts_nil_draw stmts_cons_draw ?noClause ?clauses ?noBlock ?someBlock
  case block => exact fun body inner => inner
  case breaks =>
    exact fun span => leaf _ (.breaks span) rfl rfl rfl ⟨rfl,rfl⟩ (fun _ => rfl) (fun _ => rfl) fun _ _ => rfl
  case continues =>
    exact fun span => leaf _ (.continues span) rfl rfl rfl ⟨rfl,rfl⟩ (fun _ => rfl) (fun _ => rfl) fun _ _ => rfl
  case empty =>
    exact fun span => leaf _ (.empty span) rfl rfl rfl ⟨rfl,rfl⟩ (fun _ => rfl) (fun _ => rfl) fun _ _ => rfl
  case unsupported =>
    exact fun span => leaf _ (.unsupported span) rfl rfl rfl ⟨rfl,rfl⟩ (fun _ => rfl) (fun _ => rfl) fun _ _ => rfl
  case noStmt => exact fun before => ⟨.nil before,rfl⟩
  case someStmt => exact fun value inner before => ⟨(inner before).drafted,(inner before).sight⟩
  case noClause => exact fun before => ⟨.nil before,rfl⟩
  case clauses =>
    intro first rest one others before
    obtain ⟨head,between⟩ := one before
    obtain ⟨tail,behind⟩ := others (catchNode scope first before).2
    have all := head.append tail
    rw [between] at all behind
    exact ⟨all.congr (by simp [Catch.walkAll]) (by simp [Catch.walkAll]),behind⟩
  case noBlock => exact fun before => ⟨.nil before,rfl⟩
  case someBlock =>
    intro value inner before
    exact ⟨(inner before).drafted.congr (by rw [Stmt.walk,Block.walkOption])
      (by rw [Stmt.walk,Block.walkOption]),(inner before).sight⟩

theorem stmts_draw (list : List Stmt) : StmtsDraw scope method list := stmt_all_draws.2.2.2.1 list

end Drafting
end Transplant
