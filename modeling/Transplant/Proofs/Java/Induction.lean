import Transplant.Java.Decl

/-! Induction over the trees of expressions, statements and declarations, together with the lists and
the missing values in them; one case for each form. -/
namespace Transplant.Java

theorem Expr.induction_all {p : Expr → Prop} {q : Option Expr → Prop} {r : List Expr → Prop}
    (name : ∀ text span, p (.name text span))
    (literal : ∀ kind value span, p (.literal kind value span))
    (this : ∀ span, p (.this span))
    (super : ∀ span, p (.super span))
    (missing : ∀ span, p (.missing span))
    (call : ∀ callee args span, p callee → r args → p (.call callee args span))
    (create : ∀ outer type args dims initializer body span, q outer → r args → r dims → q initializer →
      p (.create outer type args dims initializer body span))
    (field : ∀ receiver member span, p receiver → p (.field receiver member span))
    (index : ∀ array position span, p array → p position → p (.index array position span))
    (unary : ∀ op leading operand span, p operand → p (.unary op leading operand span))
    (binary : ∀ op left right span, p left → p right → p (.binary op left right span))
    (instanceOf : ∀ operand type span, p operand → p (.instanceOf operand type span))
    (assign : ∀ op left right span, p left → p right → p (.assign op left right span))
    (conditional : ∀ condition yes no span, p condition → p yes → p no → p (.conditional condition yes no span))
    (paren : ∀ inner span, p inner → p (.paren inner span))
    (arrayInit : ∀ elements span, r elements → p (.arrayInit elements span))
    (nil : r []) (cons : ∀ first rest, p first → r rest → r (first :: rest))
    (none : q none) (some : ∀ value, p value → q (some value)) :
    (∀ e, p e) ∧ (∀ value, q value) ∧ ∀ list, r list :=
  Expr.mapSpans.mutual_induct p q r name literal this super missing call create field index unary binary
    instanceOf assign conditional paren arrayInit nil cons none some

theorem Stmt.induction_all {p : Stmt → Prop} {q : Option Block → Prop} {r : Block → Prop} {l : List Stmt → Prop}
    {m : List Catch → Prop} {c : Catch → Prop} {o : Option Stmt → Prop}
    (declare : ∀ type declarators span, p (.declare type declarators span))
    (expr : ∀ value span, p (.expr value span))
    (returns : ∀ value span, p (.returns value span))
    (throws : ∀ value span, p (.throws value span))
    (ifElse : ∀ condition yes no span, p yes → o no → p (.ifElse condition yes no span))
    (whileLoop : ∀ condition body span, p body → p (.whileLoop condition body span))
    (forLoop : ∀ init condition update body span, l init → p body → p (.forLoop init condition update body span))
    (forEach : ∀ element iterable body span, p body → p (.forEach element iterable body span))
    (tryCatch : ∀ body catches cleanup span, r body → m catches → q cleanup → p (.tryCatch body catches cleanup span))
    (block : ∀ body, r body → p (.block body))
    (breaks : ∀ span, p (.breaks span))
    (continues : ∀ span, p (.continues span))
    (empty : ∀ span, p (.empty span))
    (unsupported : ∀ span, p (.unsupported span))
    (statements : ∀ list span, l list → r ⟨list,span⟩)
    (clause : ∀ param body span, r body → c ⟨param,body,span⟩)
    (noStmt : o none) (someStmt : ∀ value, p value → o (some value))
    (nil : l []) (cons : ∀ first rest, p first → l rest → l (first :: rest))
    (noClause : m []) (clauses : ∀ first rest, c first → m rest → m (first :: rest))
    (noBlock : q none) (someBlock : ∀ value, r value → q (some value)) :
    (∀ s, p s) ∧ (∀ value, q value) ∧ (∀ b, r b) ∧ (∀ list, l list) ∧ (∀ list, m list) ∧ (∀ one, c one) ∧
      ∀ value, o value :=
  Stmt.mapSpans.mutual_induct p q r l m c o declare expr returns throws ifElse whileLoop forLoop forEach tryCatch
    block breaks continues empty unsupported statements clause noStmt someStmt nil cons noClause clauses noBlock
    someBlock

theorem TypeDecl.induction_all {p : TypeDecl → Prop} {l : List Member → Prop} {q : Member → Prop}
    (type : ∀ kind modifiers name span bodySpan members, l members →
      p ⟨kind,modifiers,name,span,bodySpan,members⟩)
    (field : ∀ decl, q (.field decl))
    (method : ∀ decl, q (.method decl))
    (constructor : ∀ decl, q (.constructor decl))
    (initializer : ∀ decl, q (.initializer decl))
    (nested : ∀ decl, p decl → q (.type decl))
    (nil : l []) (cons : ∀ member rest, q member → l rest → l (member :: rest)) :
    (∀ decl, p decl) ∧ (∀ list, l list) ∧ ∀ member, q member :=
  TypeDecl.mapSpans.mutual_induct p l q type field method constructor initializer nested nil cons

end Transplant.Java
