import Transplant.Analysis.Method
import Transplant.Body.Build
import Transplant.Proofs.Java.Induction

/-! What is met on the way through the source of a method body, from left to right. A visit is
read off the syntax alone; a name is visited together with the variables in force where it stands. -/
namespace Transplant

open Java (Ident TypeRef Param Expr Declarator Stmt Block Catch)

inductive Visit where
  | name (name : String) (visible : Locals) (access : Access) (span : Span)
  | this (span : Span)
  | super (span : Span)
  | missing (span : Span)
  | call (name : Ident) (arity : Nat) (span : Span)
  | callOnThis (name : Ident) (arity : Nat) (span : Span)
  | create (type : String) (span : Span)
  | anonymous (span : Span)
  | type (span : Span)
  | binding (span : Span)
  | declare (declared : Local)
  | resources (span : Span)
  | leave (span : Span)
  | unsupported (span : Span)
deriving DecidableEq, Repr

/-- The variables in force at a place, and how many were declared before it. -/
structure Sight where
  visible : Locals
  count : Nat
deriving DecidableEq, Repr

namespace Sight

def start : Sight := ⟨[],0⟩

def declare (sight : Sight) (name : Ident) : Sight :=
  ⟨(name.text,sight.count) :: sight.visible,sight.count + 1⟩

/-- What is in force again behind a block, loop or clause. -/
def outside (sight inner : Sight) : Sight := ⟨sight.visible,inner.count⟩

end Sight

namespace Java

mutual

def Expr.walk (visible : Locals) (access : Access) : Expr → List Visit
  | .name text span => [.name text visible access span]
  | .literal _ _ _ => []
  | .this span => [.this span]
  | .super span => [.super span]
  | .missing span => [.missing span]
  | .call (.name text place) args span =>
    .call ⟨text,place⟩ args.length span :: Expr.walkAll visible args
  | .call (.this place) args span =>
    .call ⟨"this",place⟩ args.length span :: Expr.walkAll visible args
  | .call (.super place) args span =>
    .call ⟨"super",place⟩ args.length span :: Expr.walkAll visible args
  | .call (.field (.this place) member _) args span =>
    .callOnThis member args.length span :: .this place :: Expr.walkAll visible args
  | .call callee args _ => callee.walk visible .read ++ Expr.walkAll visible args
  | .create none type args dims initializer body span =>
    .create type.text span :: .type type.span :: (Expr.walkAll visible args ++
      Expr.walkAll visible dims ++ Expr.walkOption visible initializer ++
      body.toList.map .anonymous)
  | .create (some outer) type args dims initializer body _ =>
    outer.walk visible .read ++ .type type.span :: (Expr.walkAll visible args ++
      Expr.walkAll visible dims ++ Expr.walkOption visible initializer ++
      body.toList.map .anonymous)
  | .field receiver _ _ => receiver.walk visible .read
  | .index array position _ => array.walk visible .read ++ position.walk visible .read
  | .unary op _ operand _ =>
    operand.walk visible (if op = .increment || op = .decrement then .readWrite else .read)
  | .binary _ left right _ => left.walk visible .read ++ right.walk visible .read
  | .instanceOf operand type span =>
    operand.walk visible .read ++ [.type type.span,.binding ⟨type.span.stop,span.stop⟩]
  | .assign op left right _ =>
    left.walk visible (if op = .assign then .write else .readWrite) ++ right.walk visible .read
  | .conditional condition yes no _ =>
    condition.walk visible .read ++ yes.walk visible .read ++ no.walk visible .read
  | .paren inner _ => inner.walk visible access
  | .arrayInit elements _ => Expr.walkAll visible elements

def Expr.walkAll (visible : Locals) : List Expr → List Visit
  | [] => []
  | first :: rest => first.walk visible .read ++ Expr.walkAll visible rest

def Expr.walkOption (visible : Locals) : Option Expr → List Visit
  | none => []
  | some value => value.walk visible .read

end

/-- Each variable is in force in the values of those after it. -/
def Declarator.walkAll (sight : Sight) (type : TypeRef) : List Declarator → List Visit
  | [] => []
  | first :: rest =>
    .declare ⟨type,first.name,first.span⟩ :: (Expr.walkOption sight.visible first.initializer ++
      Declarator.walkAll (sight.declare first.name) type rest)

def Declarator.afterAll (sight : Sight) (list : List Declarator) : Sight :=
  list.foldl (fun sight declarator => sight.declare declarator.name) sight

def Param.visits (param : Param) : List Visit :=
  [.type param.type.span,.declare ⟨param.type,param.name,param.span⟩]

mutual

def Stmt.after (sight : Sight) : Stmt → Sight
  | .declare _ list _ => Declarator.afterAll sight list
  | .ifElse _ yes no _ => Stmt.afterOption (yes.after sight) no
  | .whileLoop _ body _ => body.after sight
  | .forLoop init _ _ body _ => sight.outside (body.after (Stmt.afterAll sight init))
  | .forEach element _ body _ => sight.outside (body.after (sight.declare element.name))
  | .tryCatch body catches cleanup _ =>
    Block.afterOption (Catch.afterAll (body.after sight) catches) cleanup
  | .block body => body.after sight
  | .expr _ _ => sight
  | .returns _ _ => sight
  | .throws _ _ => sight
  | .breaks _ => sight
  | .continues _ => sight
  | .empty _ => sight
  | .unsupported _ => sight

def Stmt.afterAll (sight : Sight) : List Stmt → Sight
  | [] => sight
  | first :: rest => Stmt.afterAll (first.after sight) rest

def Stmt.afterOption (sight : Sight) : Option Stmt → Sight
  | none => sight
  | some stmt => stmt.after sight

def Block.after (sight : Sight) : Block → Sight
  | ⟨statements,_⟩ => sight.outside (Stmt.afterAll sight statements)

def Block.afterOption (sight : Sight) : Option Block → Sight
  | none => sight
  | some block => block.after sight

def Catch.after (sight : Sight) : Catch → Sight
  | ⟨param,body,_⟩ => sight.outside (body.after (sight.declare param.name))

def Catch.afterAll (sight : Sight) : List Catch → Sight
  | [] => sight
  | first :: rest => Catch.afterAll (first.after sight) rest

end

/-- A statement that leaves the body does so early unless it is the last one. -/
def leaving (isLast : Bool) (span : Span) : List Visit := if isLast then [] else [.leave span]

mutual

def Stmt.walk (isLast : Bool) (sight : Sight) : Stmt → List Visit
  | .declare type list _ => .type type.span :: Declarator.walkAll sight type list
  | .expr value _ => value.walk sight.visible .read
  | .returns value span => leaving isLast span ++ Expr.walkOption sight.visible value
  | .throws value span => leaving isLast span ++ value.walk sight.visible .read
  | .ifElse condition yes no _ =>
    condition.walk sight.visible .read ++ yes.walk false sight ++
      Stmt.walkOption (yes.after sight) no
  | .whileLoop condition body _ => condition.walk sight.visible .read ++ body.walk false sight
  | .forLoop init condition update body _ =>
    let inside := Stmt.afterAll sight init
    Stmt.walkAll sight init ++ Expr.walkOption inside.visible condition ++
      Expr.walkAll inside.visible update ++ body.walk false inside
  | .forEach element iterable body _ =>
    element.visits ++ iterable.walk sight.visible .read ++
      body.walk false (sight.declare element.name)
  | .tryCatch body catches cleanup span =>
    .resources ⟨span.start,body.span.start⟩ :: (body.walk sight ++
      Catch.walkAll (body.after sight) catches ++
      Block.walkOption (Catch.afterAll (body.after sight) catches) cleanup)
  | .block body => body.walk sight
  | .breaks _ => []
  | .continues _ => []
  | .empty _ => []
  | .unsupported span => [.unsupported span]

def Stmt.walkAll (sight : Sight) : List Stmt → List Visit
  | [] => []
  | first :: rest => first.walk false sight ++ Stmt.walkAll (first.after sight) rest

def Stmt.walkOption (sight : Sight) : Option Stmt → List Visit
  | none => []
  | some stmt => stmt.walk false sight

def Block.walk (sight : Sight) : Block → List Visit
  | ⟨statements,_⟩ => Stmt.walkAll sight statements

def Block.walkOption (sight : Sight) : Option Block → List Visit
  | none => []
  | some block => block.walk sight

def Catch.walk (sight : Sight) : Catch → List Visit
  | ⟨param,body,_⟩ => param.visits ++ body.walk (sight.declare param.name)

def Catch.walkAll (sight : Sight) : List Catch → List Visit
  | [] => []
  | first :: rest => first.walk sight ++ Catch.walkAll (first.after sight) rest

end

attribute [simp] Stmt.walk

/-- The statements at the top of a body, of which the last may leave it. -/
def Stmt.walkTop (sight : Sight) : List Stmt → List Visit
  | [] => []
  | [last] => last.walk true sight
  | first :: rest => first.walk false sight ++ Stmt.walkTop (first.after sight) rest

/-- All that is met in a method body. -/
def Block.visits (body : Block) : List Visit := Stmt.walkTop .start body.statements

end Java

namespace Visit

def declared? : Visit → Option Local
  | .declare declared => some declared
  | _ => none

variable {β γ : Type} (scope : Scope β) (method : Method γ)

/-- What a visit shows, but for the number of the expression. -/
def findings : Visit → List Finding
  | .name text visible access span => method.nameFindings 0 access span (scope.resolve visible text)
  | .this span => [.receiver ⟨0,.this,method.declaringType,span⟩]
  | .super span => [.superMention span]
  | .missing span => [.unread span]
  | .call callee arity span =>
    method.bareCallFindings 0 callee.text (List.replicate arity 0) (scope.method? callee.text) span
  | .callOnThis member arity span =>
    if method.isCalledBy member.text (List.replicate arity 0) then [.recursion span] else []
  | .create created span =>
    if (scope.constructor? created).any (·.isInner) then
      [.receiver ⟨0,.innerCreation,method.declaringType,span⟩]
    else []
  | .anonymous span => [.unread span]
  | .leave span => [.interruption span]
  | .unsupported span => [.unsupported span]
  | _ => []

end Visit

/-- A finding without the number of its expression. -/
def Finding.erase : Finding → Finding
  | .param index mention => .param index { mention with expr := 0 }
  | .receiver found => .receiver { found with expr := 0 }
  | .localVar id span => .localVar id span
  | .superMention span => .superMention span
  | .recursion span => .recursion span
  | .interruption span => .interruption span
  | .unsupported span => .unsupported span
  | .unread span => .unread span

end Transplant
