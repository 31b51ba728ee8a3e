import Mathlib.Data.List.Forall2
import Transplant.Proofs.Body.Walk

/-! What drafting an expression leaves in the tables. Entries are only added, the parts of a node
have smaller numbers than the node, and the findings of the node are those of the visits on the way
through the expression. -/
namespace Transplant

open Java (Ident TypeRef Expr LiteralKind UnaryOp BinaryOp AssignOp)

namespace Drafting

/-- Every entry of the first draft is in the second one, under the same number. -/
structure Extends (before after : Draft) : Prop where
  exprs : ∀ (id : Nat) node, before.exprs[id]? = some node → after.exprs[id]? = some node
  stmts : ∀ (id : Nat) node, before.stmts[id]? = some node → after.stmts[id]? = some node

/-- Every entry of the draft is in the tables of the body. -/
structure Holds (body : Body) (draft : Draft) : Prop where
  exprs : ∀ (id : Nat) node, draft.exprs[id]? = some node → body.exprs[id]? = some node
  stmts : ∀ (id : Nat) node, draft.stmts[id]? = some node → body.stmts[id]? = some node

variable {before middle after : Draft} {body : Body}

theorem Extends.refl (draft : Draft) : Extends draft draft := ⟨fun _ _ same => same,fun _ _ same => same⟩

theorem Extends.trans (first : Extends before middle) (second : Extends middle after) :
    Extends before after :=
  ⟨fun id node found => second.exprs id node (first.exprs id node found),
    fun id node found => second.stmts id node (first.stmts id node found)⟩

theorem Holds.of_extends (holds : Holds body after) (grown : Extends before after) : Holds body before :=
  ⟨fun id node found => holds.exprs id node (grown.exprs id node found),
    fun id node found => holds.stmts id node (grown.stmts id node found)⟩

theorem getElem?_push_of_some {α : Type} {table : Array α} {id : Nat} {node : α} (new : α)
    (found : table[id]? = some node) : (table.push new)[id]? = some node := by
  obtain ⟨bound,same⟩ := Array.getElem?_eq_some_iff.mp found
  rw [Array.getElem?_push_lt bound,same]

theorem addExpr_extends (node : ExprNode) (draft : Draft) : Extends draft (addExpr node draft).2 :=
  ⟨fun _ _ found => getElem?_push_of_some node found,fun _ _ found => found⟩

theorem addExpr_found (node : ExprNode) (draft : Draft) :
    (addExpr node draft).2.exprs[(addExpr node draft).1]? = some node := by
  change (draft.exprs.push node)[draft.exprs.size]? = some node
  simp

end Drafting

namespace Method

variable {γ : Type} (method : Method γ)

/-- The findings of a node whose parts have smaller numbers. -/
theorem exprFindings_eq {body : Body} {access : Access} {id : ExprId} {node : ExprNode}
    (found : body.exprs[id]? = some node) (small : ∀ part ∈ node.parts access, part.1 < id) :
    method.exprFindings body access id = method.findingsBefore body id access node ++
      (node.parts access).flatMap (fun part => method.exprFindings body part.2 part.1) ++
      findingsAfter node := by
  rw [exprFindings,found]
  simp only
  congr 2
  apply List.flatMap_congr
  intro part member
  rw [if_pos (small part member)]

theorem nameFindings_erase (id : ExprId) (access : Access) (span : Span) (resolution : Resolution) :
    (method.nameFindings id access span resolution).map Finding.erase =
      method.nameFindings 0 access span resolution := by
  cases resolution with
  | field target =>
    simp only [nameFindings]
    split <;> rfl
  | param index => rfl
  | localVar target => rfl
  | type name => rfl
  | unresolved => rfl

theorem isCalledBy_replicate (name : String) (args : List ExprId) :
    method.isCalledBy name (List.replicate args.length 0) = method.isCalledBy name args := by
  simp [isCalledBy]

theorem bareCallFindings_erase (id : ExprId) (name : String) (args : List ExprId)
    (target : Option MethodRef) (span : Span) :
    (method.bareCallFindings id name args target span).map Finding.erase =
      method.bareCallFindings 0 name (List.replicate args.length 0) target span := by
  simp only [bareCallFindings,isCalledBy_replicate]
  split
  · rfl
  split
  · rfl
  split
  · split <;> rfl
  · rfl

end Method

def Java.Expr.isThis : Expr → Bool
  | .this _ => true
  | _ => false

/-- What stands in front of a call is a name, or ends in one. -/
def Java.Expr.isNamed : Expr → Bool
  | .name _ _ => true
  | .field _ _ _ => true
  | .this _ => true
  | .super _ => true
  | _ => false

theorem Java.Expr.isThis_eq_false {e : Expr} (notThis : ∀ place, e = .this place → False) : e.isThis = false := by
  cases e with
  | this place => exact (notThis place rfl).elim
  | _ => rfl

theorem Java.Expr.isNamed_eq_false {e : Expr} (notName : ∀ text place, e = .name text place → False)
    (notField : ∀ receiver name place, e = .field receiver name place → False)
    (notThis : ∀ place, e = .this place → False) (notSuper : ∀ place, e = .super place → False) :
    e.isNamed = false := by
  cases e with
  | name text place => exact (notName text place rfl).elim
  | field receiver name place => exact (notField receiver name place rfl).elim
  | this place => exact (notThis place rfl).elim
  | super place => exact (notSuper place rfl).elim
  | _ => rfl

theorem Java.Expr.isThis_of_unnamed {e : Expr} (unnamed : e.isNamed = false) : e.isThis = false := by
  cases e with
  | this place => cases unnamed
  | _ => rfl

def ExprNode.isThis : ExprNode → Bool
  | .this _ => true
  | _ => false

theorem Method.isThis_eq {body : Body} {id : ExprId} {node : ExprNode}
    (found : body.exprs[id]? = some node) : Method.isThis body id = node.isThis := by
  rw [Method.isThis,found]
  cases node <;> rfl

/-! How a call on a receiver is visited and entered. Unless the receiver is `this`, the method called is not
looked up; what is called without a name is a receiver as a whole. -/

section Calls

variable {β : Type} (scope : Scope β) {callee receiver : Expr} (args : List Expr) (span : Span)

theorem Java.Expr.walk_call_field (other : receiver.isThis = false) (name : Ident) (behind : Span)
    (visible : Locals) (access : Access) :
    (Expr.call (.field receiver name behind) args span).walk visible access =
      receiver.walk visible .read ++ Expr.walkAll visible args := by
  cases receiver with
  | this place => cases other
  | _ => rfl

theorem Java.Expr.walk_call (unnamed : callee.isNamed = false) (visible : Locals) (access : Access) :
    (Expr.call callee args span).walk visible access =
      callee.walk visible .read ++ Expr.walkAll visible args := by
  cases callee with
  | name | field | this | super => cases unnamed
  | _ => rfl

theorem Drafting.expr_call_field (other : receiver.isThis = false) (name : Ident) (behind : Span) :
    expr scope (.call (.field receiver name behind) args span) = (do
      let receiver ← expr scope receiver
      addExpr (.call (some receiver) name (← exprs scope args) none span)) := by
  cases receiver with
  | this place => cases other
  | _ => rfl

theorem Drafting.expr_call (unnamed : callee.isNamed = false) :
    expr scope (.call callee args span) = (do
      let receiver ← expr scope callee
      addExpr (.call (some receiver) ⟨"",.empty callee.span.stop⟩ (← exprs scope args) none span)) := by
  cases callee with
  | name | field | this | super => cases unnamed
  | _ => rfl

/-- Induction along drafting: a call has a case for each way in which it names its method. -/
theorem Drafting.expr_induction {p : Expr → Prop} {q : Option Expr → Prop} {r : List Expr → Prop}
    (name : ∀ text span, p (.name text span))
    (literal : ∀ kind value span, p (.literal kind value span))
    (this : ∀ span, p (.this span))
    (super : ∀ span, p (.super span))
    (missing : ∀ span, p (.missing span))
    (nameCall : ∀ text place args span, r args → p (.call (.name text place) args span))
    (thisFieldCall : ∀ place name behind args span, r args → p (.call (.field (.this place) name behind) args span))
    (fieldCall : ∀ receiver name behind args span, receiver.isThis = false → p receiver → r args →
      p (.call (.field receiver name behind) args span))
    (thisCall : ∀ place args span, r args → p (.call (.this place) args span))
    (superCall : ∀ place args span, r args → p (.call (.super place) args span))
    (call : ∀ callee args span, callee.isNamed = false → p callee → r args → p (.call callee args span))
    (create : ∀ outer type args dims initializer body span, q outer → r args → r dims → q initializer →
      p (.create outer type args dims initializer body span))
    (field : ∀ receiver member span, p receiver → p (.field receiver member span))
    (index : ∀ array position span, p array → p position → p (.index array position span))
    (unary : ∀ op leading operand span, p operand → p (.unary op leading operand span))
    (binary : ∀ op left right span, p left → p right → p (.binary op left right span))
    (instanceOf : ∀ operand type span, p operand → p (.instanceOf operand type span))
    (assign : ∀ op left right span, p left → p right → p (.assign op left right span))
    (conditional : ∀ condition yes no span, p condition → p yes → p no → p (.conditional condition yes no span))
    (paren : ∀ inner span, p inner → p (.paren inner span))
    (arrayInit : ∀ elements span, r elements → p (.arrayInit elements span))
    (nil : r []) (cons : ∀ first rest, p first → r rest → r (first :: rest))
    (none : q none) (some : ∀ value, p value → q (some value)) :
    (∀ e, p e) ∧ (∀ value, q value) ∧ ∀ list, r list := by
  refine Drafting.expr.mutual_induct p q r name literal this super missing nameCall thisFieldCall ?field thisCall
    superCall ?other create field index unary binary instanceOf assign conditional paren arrayInit nil cons none some
  case field =>
    intro receiver name behind args span notThis
    exact fieldCall receiver name behind args span (Expr.isThis_eq_false notThis)
  case other =>
    intro callee args span notName _ notField notThis notSuper
    exact call callee args span (Expr.isNamed_eq_false notName notField notThis notSuper)

end Calls

namespace Drafting

variable {β γ : Type} (scope : Scope β) (method : Method γ)

/-- What drafting an expression does to the draft before it. -/
structure Drawn (e : Expr) (before : Draft) (drawn : ExprId × Draft) : Prop where
  grown : Extends before drawn.2
  visible : drawn.2.visible = before.visible
  locals : drawn.2.locals = before.locals
  node : ∃ node, drawn.2.exprs[drawn.1]? = some node ∧ node.span = e.span ∧ node.isThis = e.isThis
  shown : ∀ body, Holds body drawn.2 → ∀ access,
    (method.exprFindings body access drawn.1).map Finding.erase =
      (e.walk before.visible access).flatMap (Visit.findings scope method)

def walkParts (visible : Locals) (parts : List (Expr × Access)) : List Visit :=
  parts.flatMap fun part => part.1.walk visible part.2

/-- What drafting the parts of a node, one after the other, does to the draft before them. -/
structure DrawnParts (parts : List (Expr × Access)) (before : Draft) (ids : List ExprId)
    (after : Draft) : Prop where
  grown : Extends before after
  visible : after.visible = before.visible
  locals : after.locals = before.locals
  nodes : List.Forall₂ (fun id part => ∃ node, after.exprs[id]? = some node ∧
    node.span = part.1.span) ids parts
  shown : ∀ body, Holds body after →
    ((ids.zip (parts.map (·.2))).flatMap fun part =>
      method.exprFindings body part.2 part.1).map Finding.erase =
      (walkParts before.visible parts).flatMap (Visit.findings scope method)

variable {scope method} {e : Expr} {parts more : List (Expr × Access)} {ids others : List ExprId}

theorem DrawnParts.nil (draft : Draft) : DrawnParts scope method [] draft [] draft :=
  ⟨.refl draft,rfl,rfl,.nil,fun _ _ => rfl⟩

theorem Drawn.part {drawn : ExprId × Draft} (given : Drawn scope method e before drawn)
    (access : Access) : DrawnParts scope method [(e,access)] before [drawn.1] drawn.2 := by
  obtain ⟨node,found,span,_⟩ := given.node
  refine ⟨given.grown,given.visible,given.locals,.cons ⟨node,found,span⟩ .nil,?_⟩
  intro body holds
  simpa [walkParts] using given.shown body holds access

theorem DrawnParts.append (first : DrawnParts scope method parts before ids middle)
    (second : DrawnParts scope method more middle others after) :
    DrawnParts scope method (parts ++ more) before (ids ++ others) after where
  grown := first.grown.trans second.grown
  visible := second.visible.trans first.visible
  locals := second.locals.trans first.locals
  nodes := List.rel_append (first.nodes.imp fun _ _ ⟨node,found,span⟩ =>
    ⟨node,second.grown.exprs _ _ found,span⟩) second.nodes
  shown := by
    intro body holds
    have left := first.shown body (holds.of_extends second.grown)
    have right := second.shown body holds
    have length : ids.length = (parts.map (·.2)).length := by simp [first.nodes.length_eq]
    rw [List.map_append,List.zip_append length,List.flatMap_append,List.map_append,left,right,
      first.visible]
    simp [walkParts]

theorem DrawnParts.small (drawn : DrawnParts scope method parts before ids after) :
    ∀ part ∈ ids.zip (parts.map (·.2)), part.1 < after.exprs.size := by
  have nodes := drawn.nodes
  have bound : ∀ id ∈ ids, id < after.exprs.size := by
    clear drawn
    induction nodes with
    | nil => simp
    | cons first _ ih =>
      obtain ⟨node,found,_⟩ := first
      have head := (Array.getElem?_eq_some_iff.mp found).1
      simpa [head] using ih
  exact fun part member => bound part.1 (List.of_mem_zip member).1

/-- A node is added behind its parts. -/
theorem addExpr_drawn {node : ExprNode} (partsOf : Access → List (Expr × Access))
    (drawn : ∀ access, DrawnParts scope method (partsOf access) before ids middle)
    (same : ∀ access, node.parts access = ids.zip ((partsOf access).map (·.2)))
    (span : node.span = e.span) (this : node.isThis = e.isThis)
    (shown : ∀ body, Holds body middle → ∀ id access,
      (method.findingsBefore body id access node).map Finding.erase ++
        (walkParts before.visible (partsOf access)).flatMap (Visit.findings scope method) ++
        (Method.findingsAfter node).map Finding.erase =
      (e.walk before.visible access).flatMap (Visit.findings scope method)) :
    Drawn scope method e before (addExpr node middle) where
  grown := (drawn .read).grown.trans (addExpr_extends node middle)
  visible := (drawn .read).visible
  locals := (drawn .read).locals
  node := ⟨node,addExpr_found node middle,span,this⟩
  shown := by
    intro body holds access
    have held := holds.of_extends (addExpr_extends node middle)
    have found := holds.exprs _ _ (addExpr_found node middle)
    have small : ∀ part ∈ node.parts access, part.1 < (addExpr node middle).1 := by
      rw [same access]
      exact (drawn access).small
    rw [method.exprFindings_eq found small,List.map_append,List.map_append,same access,
      (drawn access).shown body held]
    exact shown body held _ access

variable (scope method)

/-- Drafting the expression keeps to what is said of it above, whatever was drafted before. -/
def Draws (e : Expr) : Prop := ∀ before, Drawn scope method e before (expr scope e before)

def DrawsAll (list : List Expr) : Prop := ∀ before,
  DrawnParts scope method (list.map (·,.read)) before (exprs scope list before).1
    (exprs scope list before).2

def DrawsOption (value : Option Expr) : Prop := ∀ before,
  DrawnParts scope method (value.toList.map (·,.read)) before
    (exprOption scope value before).1.toList (exprOption scope value before).2

variable {scope method}

theorem walkParts_read (visible : Locals) (list : List Expr) :
    walkParts visible (list.map (·,.read)) = Expr.walkAll visible list := by
  induction list with
  | nil => rfl
  | cons first rest ih =>
    change first.walk visible .read ++ walkParts visible (rest.map (·,.read)) = _
    rw [ih,Expr.walkAll]

theorem walkAll_toList (visible : Locals) (value : Option Expr) :
    Expr.walkAll visible value.toList = Expr.walkOption visible value := by
  cases value with
  | none => rfl
  | some value => simp [Expr.walkAll,Expr.walkOption]

theorem walkParts_append (visible : Locals) (parts more : List (Expr × Access)) :
    walkParts visible (parts ++ more) = walkParts visible parts ++ walkParts visible more :=
  List.flatMap_append

/-- Parts that are all read are named by their numbers alone. -/
theorem DrawnParts.zip_read {list : List Expr}
    (drawn : DrawnParts scope method (list.map (·,.read)) before ids after) :
    ids.zip ((list.map (·,Access.read)).map (·.2)) = ids.map (·,.read) := by
  have length := drawn.nodes.length_eq
  clear drawn
  induction ids generalizing list with
  | nil => rfl
  | cons id ids ih =>
    cases list with
    | nil => simp at length
    | cons first rest => simpa using ih (by simpa using length)

/-- A node without parts. -/
theorem leaf_draws (node : ExprNode) (drafted : expr scope e = addExpr node)
    (same : ∀ access, node.parts access = []) (span : node.span = e.span)
    (this : node.isThis = e.isThis)
    (shown : ∀ body id access visible, (method.findingsBefore body id access node).map Finding.erase ++
        (Method.findingsAfter node).map Finding.erase =
      (e.walk visible access).flatMap (Visit.findings scope method)) : Draws scope method e := by
  intro before
  rw [drafted]
  refine addExpr_drawn (fun _ => []) (fun _ => .nil before) same span this ?_
  intro body _ id access
  simpa [walkParts] using shown body id access before.visible

theorem name_draws (text : String) (span : Span) : Draws scope method (.name text span) := by
  intro before
  change Drawn scope method _ before (addExpr (.name text (scope.resolve before.visible text) span) before)
  refine addExpr_drawn (fun _ => []) (fun _ => .nil before) (fun _ => rfl) rfl rfl ?_
  intro body _ id access
  simp [Method.findingsBefore,Method.nameFindings_erase,Method.findingsAfter,walkParts,Expr.walk,
    Visit.findings]

theorem literal_draws (kind : LiteralKind) (value : String) (span : Span) :
    Draws scope method (.literal kind value span) :=
  leaf_draws (.literal kind value span) rfl (fun _ => rfl) rfl rfl fun _ _ _ _ => rfl

theorem this_draws (span : Span) : Draws scope method (.this span) :=
  leaf_draws (.this span) rfl (fun _ => rfl) rfl rfl fun _ _ _ _ => rfl

theorem super_draws (span : Span) : Draws scope method (.super span) :=
  leaf_draws (.super span) rfl (fun _ => rfl) rfl rfl fun _ _ _ _ => rfl

theorem missing_draws (span : Span) : Draws scope method (.missing span) :=
  leaf_draws (.missing span) rfl (fun _ => rfl) rfl rfl fun _ _ _ _ => rfl

/-- Calls without a receiver, of methods as well as of constructors. -/
theorem bare_call_drawn {e : Expr} {args : List Expr} (name : Ident) (target : Option MethodRef) (span : Span)
    (listed : DrawsAll scope method args) (before : Draft) (spanned : span = e.span)
    (this : false = e.isThis)
    (walked : ∀ access, e.walk before.visible access =
      .call name args.length span :: Expr.walkAll before.visible args)
    (meant : ∀ args, method.bareCallFindings 0 name.text args target span =
      method.bareCallFindings 0 name.text args (scope.method? name.text) span) :
    Drawn scope method e before (addExpr (.call none name (exprs scope args before).1 target span)
      (exprs scope args before).2) := by
  have drawn := listed before
  have length := drawn.nodes.length_eq
  refine addExpr_drawn (fun _ => args.map (·,.read)) (fun _ => drawn) (fun _ => drawn.zip_read.symm)
    spanned this ?_
  intro body _ id access
  simp only [List.length_map] at length
  simp [Method.findingsBefore,Method.bareCallFindings_erase,Method.findingsAfter,walkParts_read,walked,
    Visit.findings,length,meant]

theorem name_call_draws (text : String) (place : Span) (args : List Expr) (span : Span)
    (listed : DrawsAll scope method args) : Draws scope method (.call (.name text place) args span) :=
  fun before => bare_call_drawn ⟨text,place⟩ _ span listed before rfl rfl (fun _ => by rw [Expr.walk])
    fun _ => rfl

theorem this_call_draws (place : Span) (args : List Expr) (span : Span)
    (listed : DrawsAll scope method args) : Draws scope method (.call (.this place) args span) :=
  fun before => bare_call_drawn ⟨"this",place⟩ none span listed before rfl rfl
    (fun _ => by rw [Expr.walk]) fun _ => by simp [Method.bareCallFindings]

theorem super_call_draws (place : Span) (args : List Expr) (span : Span)
    (listed : DrawsAll scope method args) : Draws scope method (.call (.super place) args span) :=
  fun before => bare_call_drawn ⟨"super",place⟩ none span listed before rfl rfl
    (fun _ => by rw [Expr.walk]) fun _ => by simp [Method.bareCallFindings]

/-- Calls on a receiver. -/
theorem call_on_drawn {e receiver : Expr} {args : List Expr} (name : Ident) (target : Option MethodRef)
    (span : Span) {drawn : ExprId × Draft} (first : Drawn scope method receiver before drawn)
    (listed : DrawsAll scope method args) (spanned : span = e.span) (this : false = e.isThis)
    (walked : ∀ access, (e.walk before.visible access).flatMap (Visit.findings scope method) =
      (if receiver.isThis && method.isCalledBy name.text (List.replicate args.length 0) then
        [.recursion span] else []) ++
      (receiver.walk before.visible .read ++ Expr.walkAll before.visible args).flatMap
        (Visit.findings scope method)) :
    Drawn scope method e before (addExpr (.call (some drawn.1) name (exprs scope args drawn.2).1 target span)
      (exprs scope args drawn.2).2) := by
  have rest := listed drawn.2
  have both := (first.part .read).append rest
  have all : DrawnParts scope method ((receiver :: args).map (·,.read)) before
      (drawn.1 :: (exprs scope args drawn.2).1) (exprs scope args drawn.2).2 := both
  have length := rest.nodes.length_eq
  simp only [List.length_map] at length
  refine addExpr_drawn (fun _ => (receiver :: args).map (·,.read)) (fun _ => all)
    (fun _ => all.zip_read.symm) spanned this ?_
  intro body holds id access
  obtain ⟨node,found,_,same⟩ := first.node
  have seen := Method.isThis_eq ((holds.of_extends rest.grown).exprs _ _ found)
  rw [same] at seen
  simp only [walkParts_read,Expr.walkAll,walked,Method.findingsBefore,Method.findingsAfter,seen,
    ← method.isCalledBy_replicate name.text (exprs scope args drawn.2).1,length,List.map_nil,List.append_nil]
  congr 1
  split <;> rfl

theorem this_field_call_draws (place : Span) (name : Ident) (behind : Span) (args : List Expr) (span : Span)
    (listed : DrawsAll scope method args) :
    Draws scope method (.call (.field (.this place) name behind) args span) :=
  fun before => call_on_drawn name (scope.method? name.text) span (this_draws place before) listed rfl rfl
    fun _ => by simp [Expr.walk,Expr.isThis,Visit.findings]

theorem field_call_draws (receiver : Expr) (name : Ident) (behind : Span) (args : List Expr) (span : Span)
    (other : receiver.isThis = false) (inner : Draws scope method receiver)
    (listed : DrawsAll scope method args) :
    Draws scope method (.call (.field receiver name behind) args span) := by
  intro before
  rw [expr_call_field scope args span other]
  exact call_on_drawn name none span (inner before) listed rfl rfl fun access => by
    simp [Expr.walk_call_field args span other,other]

/-- Only what is not called in well-formed source is called here. -/
theorem call_draws (callee : Expr) (args : List Expr) (span : Span) (unnamed : callee.isNamed = false)
    (inner : Draws scope method callee) (listed : DrawsAll scope method args) :
    Draws scope method (.call callee args span) := by
  intro before
  rw [expr_call scope args span unnamed]
  exact call_on_drawn _ none span (inner before) listed rfl rfl fun access => by
    simp [Expr.walk_call args span unnamed,Expr.isThis_of_unnamed unnamed]

theorem create_draws (outer : Option Expr) (type : TypeRef) (args dims : List Expr)
    (initializer : Option Expr) (body : Option Span) (span : Span) (first : DrawsOption scope method outer)
    (second : DrawsAll scope method args) (third : DrawsAll scope method dims)
    (fourth : DrawsOption scope method initializer) :
    Draws scope method (.create outer type args dims initializer body span) := by
  intro before
  have drawn := (((first before).append (second _)).append (third _)).append (fourth _)
  simp only [← List.map_append] at drawn
  refine addExpr_drawn (fun _ => (outer.toList ++ args ++ dims ++ initializer.toList).map (·,.read))
    (fun _ => drawn) (fun _ => drawn.zip_read.symm) rfl rfl ?_
  intro tables _ id access
  have after : (Method.findingsAfter (.create (exprOption scope outer before).1 type
      (exprs scope args (exprOption scope outer before).2).1
      (exprs scope dims (exprs scope args (exprOption scope outer before).2).2).1
      (exprOption scope initializer (exprs scope dims (exprs scope args
        (exprOption scope outer before).2).2).2).1 body (scope.constructor? type.text) span)).map
        Finding.erase =
      (body.toList.map Visit.anonymous).flatMap (Visit.findings scope method) := by
    cases body <;> simp [Method.findingsAfter,Finding.erase,Visit.findings]
  rw [after]
  simp only [List.map_append,walkParts_append,walkParts_read,walkAll_toList]
  cases outer with
  | none =>
    simp only [show exprOption scope none before = (none,before) from rfl,Method.findingsBefore,
      Expr.walk,Expr.walkOption,List.flatMap_cons,Visit.findings,List.flatMap_append]
    split <;> simp [Finding.erase]
  | some outer =>
    simp only [show exprOption scope (some outer) before =
      (some (expr scope outer before).1,(expr scope outer before).2) from rfl,Method.findingsBefore,
      Expr.walk,Expr.walkOption,List.flatMap_cons,Visit.findings,List.flatMap_append]
    simp

theorem field_draws (receiver : Expr) (name : Ident) (span : Span) (inner : Draws scope method receiver) :
    Draws scope method (.field receiver name span) := by
  intro before
  refine addExpr_drawn (fun _ => [(receiver,.read)]) (fun _ => (inner before).part .read) (fun _ => rfl)
    rfl rfl ?_
  intro body _ id access
  simp [Method.findingsBefore,Method.findingsAfter,walkParts,Expr.walk]

theorem index_draws (array position : Expr) (span : Span) (first : Draws scope method array)
    (second : Draws scope method position) : Draws scope method (.index array position span) := by
  intro before
  refine addExpr_drawn (fun _ => [(array,.read),(position,.read)])
    (fun _ => ((first before).part .read).append ((second _).part .read)) (fun _ => rfl) rfl rfl ?_
  intro body _ id access
  simp [Method.findingsBefore,Method.findingsAfter,walkParts,Expr.walk]

theorem unary_draws (op : UnaryOp) (leading : Bool) (operand : Expr) (span : Span)
    (inner : Draws scope method operand) : Draws scope method (.unary op leading operand span) := by
  intro before
  refine addExpr_drawn (fun _ => [(operand,if op = .increment || op = .decrement then .readWrite else .read)])
    (fun _ => (inner before).part _) (fun _ => rfl) rfl rfl ?_
  intro body _ id access
  simp [Method.findingsBefore,Method.findingsAfter,walkParts,Expr.walk]

theorem binary_draws (op : BinaryOp) (left right : Expr) (span : Span) (first : Draws scope method left)
    (second : Draws scope method right) : Draws scope method (.binary op left right span) := by
  intro before
  refine addExpr_drawn (fun _ => [(left,.read),(right,.read)])
    (fun _ => ((first before).part .read).append ((second _).part .read)) (fun _ => rfl) rfl rfl ?_
  intro body _ id access
  simp [Method.findingsBefore,Method.findingsAfter,walkParts,Expr.walk]

theorem instanceOf_draws (operand : Expr) (type : TypeRef) (span : Span)
    (inner : Draws scope method operand) : Draws scope method (.instanceOf operand type span) := by
  intro before
  refine addExpr_drawn (fun _ => [(operand,.read)]) (fun _ => (inner before).part .read) (fun _ => rfl)
    rfl rfl ?_
  intro body _ id access
  simp [Method.findingsBefore,Method.findingsAfter,walkParts,Expr.walk,Visit.findings]

theorem assign_draws (op : AssignOp) (left right : Expr) (span : Span) (first : Draws scope method left)
    (second : Draws scope method right) : Draws scope method (.assign op left right span) := by
  intro before
  refine addExpr_drawn (fun _ => [(left,if op = .assign then .write else .readWrite),(right,.read)])
    (fun _ => ((first before).part _).append ((second _).part .read)) (fun _ => rfl) rfl rfl ?_
  intro body _ id access
  simp [Method.findingsBefore,Method.findingsAfter,walkParts,Expr.walk]

theorem conditional_draws (condition yes no : Expr) (span : Span) (first : Draws scope method condition)
    (second : Draws scope method yes) (third : Draws scope method no) :
    Draws scope method (.conditional condition yes no span) := by
  intro before
  refine addExpr_drawn (fun _ => [(condition,.read),(yes,.read),(no,.read)])
    (fun _ => ((first before).part .read).append (((second _).part .read).append ((third _).part .read)))
    (fun _ => rfl) rfl rfl ?_
  intro body _ id access
  simp [Method.findingsBefore,Method.findingsAfter,walkParts,Expr.walk]

/-- Parentheses pass the access on. -/
theorem paren_draws (inside : Expr) (span : Span) (inner : Draws scope method inside) :
    Draws scope method (.paren inside span) := by
  intro before
  refine addExpr_drawn (fun access => [(inside,access)]) (fun access => (inner before).part access)
    (fun _ => rfl) rfl rfl ?_
  intro body _ id access
  simp [Method.findingsBefore,Method.findingsAfter,walkParts,Expr.walk]

theorem arrayInit_draws (elements : List Expr) (span : Span) (listed : DrawsAll scope method elements) :
    Draws scope method (.arrayInit elements span) := by
  intro before
  have drawn := listed before
  refine addExpr_drawn (fun _ => elements.map (·,.read)) (fun _ => drawn) (fun _ => drawn.zip_read.symm)
    rfl rfl ?_
  intro body _ id access
  simp [Method.findingsBefore,Method.findingsAfter,walkParts_read,Expr.walk]

/-- Expressions, values that may be missing, and lists of expressions. -/
theorem expr_all_draws : (∀ e, Draws scope method e) ∧ (∀ value, DrawsOption scope method value) ∧
    ∀ list, DrawsAll scope method list := by
  refine expr_induction name_draws literal_draws this_draws super_draws missing_draws name_call_draws
    this_field_call_draws field_call_draws this_call_draws super_call_draws call_draws create_draws field_draws
    index_draws unary_draws binary_draws instanceOf_draws assign_draws conditional_draws paren_draws
    arrayInit_draws ?nil ?cons ?none ?some
  case nil => exact fun before => .nil before
  case cons => exact fun first rest one others before => ((one before).part .read).append (others _)
  case none => exact fun before => .nil before
  case some => exact fun value inner before => (inner before).part .read

variable (scope method)

theorem expr_draws (e : Expr) : Draws scope method e := expr_all_draws.1 e

theorem exprOption_draws (value : Option Expr) : DrawsOption scope method value := expr_all_draws.2.1 value

theorem exprs_draws (list : List Expr) : DrawsAll scope method list := expr_all_draws.2.2 list

end Drafting
end Transplant
