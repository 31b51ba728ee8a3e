import Transplant.Java.Expr.Parser
import Transplant.Proofs.Java.Spacing
import Transplant.Proofs.Java.Spans

/-! Writing expressions as tokens. `Expr.print` writes a tree as it stands, without adding
parentheses, so only the trees that respect the precedences, `Expr.Regular`, can be read back. Where
every part of the tree comes to stand among the tokens is `Expr.placed`. -/
namespace Transplant.Java

def word (text : String) : Token := ⟨.ident,text⟩

namespace Token

def dot : Token := ⟨.dot,"."⟩

def comma : Token := ⟨.comma,","⟩

def question : Token := ⟨.question,"?"⟩

def colon : Token := ⟨.colon,":"⟩

def parenOpen : Token := ⟨.parenOpen,"("⟩

def parenClose : Token := ⟨.parenClose,")"⟩

def bracketOpen : Token := ⟨.bracketOpen,"["⟩

def bracketClose : Token := ⟨.bracketClose,"]"⟩

def braceOpen : Token := ⟨.braceOpen,"\x7b"⟩

def braceClose : Token := ⟨.braceClose,"\x7d"⟩

end Token

def UnaryOp.token : UnaryOp → Token
  | .not => ⟨.bang,"!"⟩
  | .neg => ⟨.minus,"-"⟩
  | .plus => ⟨.plus,"+"⟩
  | .increment => ⟨.increment,"++"⟩
  | .decrement => ⟨.decrement,"--"⟩

def BinaryOp.token : BinaryOp → Token
  | .or => ⟨.pipePipe,"||"⟩
  | .and => ⟨.ampAmp,"&&"⟩
  | .bitOr => ⟨.pipe,"|"⟩
  | .bitXor => ⟨.caret,"^"⟩
  | .bitAnd => ⟨.amp,"&"⟩
  | .equal => ⟨.equal,"=="⟩
  | .notEqual => ⟨.notEqual,"!="⟩
  | .less => ⟨.less,"<"⟩
  | .lessEqual => ⟨.lessEqual,"<="⟩
  | .greater => ⟨.greater,">"⟩
  | .greaterEqual => ⟨.greaterEqual,">="⟩
  | .add => ⟨.plus,"+"⟩
  | .sub => ⟨.minus,"-"⟩
  | .mul => ⟨.star,"*"⟩
  | .div => ⟨.slash,"/"⟩
  | .rem => ⟨.percent,"%"⟩

def AssignOp.token : AssignOp → Token
  | .assign => ⟨.assign,"="⟩
  | .add => ⟨.plusAssign,"+="⟩
  | .sub => ⟨.minusAssign,"-="⟩
  | .mul => ⟨.starAssign,"*="⟩
  | .div => ⟨.slashAssign,"/="⟩
  | .rem => ⟨.percentAssign,"%="⟩

def LiteralKind.token (kind : LiteralKind) (value : String) : Token :=
  match kind with
  | .number => ⟨.number,value⟩
  | .string => ⟨.string,value⟩
  | .char => ⟨.char,value⟩
  | .bool | .null => word value

/-- The tokens a type is spelled with. -/
def TypeRef.print (type : TypeRef) : List Token := (tokens type.text.toList).map (·.token)

namespace Expr

mutual

def print : Expr → List Token
  | .name text _ => [word text]
  | .literal kind value _ => [kind.token value]
  | .this _ => [word "this"]
  | .super _ => [word "super"]
  | .missing _ => []
  | .call callee args _ => callee.print ++ .parenOpen :: (printAll args ++ [.parenClose])
  | .create outer type args _ _ _ _ =>
    printOuter outer ++ word "new" :: (type.print ++ .parenOpen :: (printAll args ++ [.parenClose]))
  | .field receiver member _ => receiver.print ++ [.dot,word member.text]
  | .index array position _ => array.print ++ .bracketOpen :: (position.print ++ [.bracketClose])
  | .unary op leading operand _ => if leading then op.token :: operand.print else operand.print ++ [op.token]
  | .binary op left right _ => left.print ++ op.token :: right.print
  | .instanceOf operand type _ => operand.print ++ word "instanceof" :: type.print
  | .assign op left right _ => left.print ++ op.token :: right.print
  | .conditional condition yes no _ => condition.print ++ .question :: (yes.print ++ .colon :: no.print)
  | .paren inner _ => .parenOpen :: (inner.print ++ [.parenClose])
  | .arrayInit _ _ => []

def printAll : List Expr → List Token
  | [] => []
  | [last] => last.print
  | first :: next :: rest => first.print ++ .comma :: printAll (next :: rest)

def printOuter : Option Expr → List Token
  | none => []
  | some outer => outer.print ++ [.dot]

end

end Expr

/-! Which trees can be read back. -/

/-- Higher precedence binds tighter. Type tests stand with the relational operators. -/
def BinaryOp.precedence : BinaryOp → Nat
  | .or => 1
  | .and => 2
  | .bitOr => 3
  | .bitXor => 4
  | .bitAnd => 5
  | .equal | .notEqual => 6
  | .less | .lessEqual | .greater | .greaterEqual => 7
  | .add | .sub => 9
  | .mul | .div | .rem => 10

theorem BinaryOp.precedence_pos (op : BinaryOp) : 1 ≤ op.precedence := by cases op <;> decide

theorem BinaryOp.precedence_le (op : BinaryOp) : op.precedence ≤ 10 := by cases op <;> decide

/-- How tightly an expression holds together: assignments, conditionals, the binary operators by
their precedence, prefix operators, and all else. -/
def Expr.rank : Expr → Nat
  | .assign _ _ _ _ => 0
  | .conditional _ _ _ _ => 1
  | .binary op _ _ _ => op.precedence + 1
  | .instanceOf _ _ _ => 8
  | .unary _ true _ _ => 12
  | _ => 13

/-- The keywords that an expression can hold. -/
def keywords : List String :=
  ["new","this","super","true","false","null","instanceof","byte","short","char","int","long","float","double",
    "boolean"]

/-- Whether a literal of the kind is spelled so. -/
def LiteralKind.isSpelled (kind : LiteralKind) (value : String) : Bool :=
  match kind with
  | .number | .string | .char => (kind.token value).isWhole
  | .bool => value == "true" || value == "false"
  | .null => value == "null"

/-- Whether `depth` open brackets are closed by the end and not before. -/
def closes : Nat → List Token → Bool
  | 0,rest => rest.isEmpty
  | _ + 1,[] => false
  | depth + 1,token :: rest =>
    closes (if token.kind = .less then depth + 2 else if token.kind = .greater then depth else depth + 1) rest

def isTypeArguments : List Token → Bool
  | [] => true
  | token :: rest => token.kind == .less && closes 1 rest

/-- Type arguments as they are kept in the text of a type. -/
def argumentText (arguments : List Token) : String :=
  String.join (arguments.map fun token => if token.kind = .comma then ", " else token.text)

/-- A dotted name, each part of it with or without type arguments, and its text. -/
inductive TypeWords : List Token → String → Prop where
  | name (text : String) (arguments : List Token) (closed : isTypeArguments arguments = true) :
      TypeWords (word text :: arguments) (text ++ argumentText arguments)
  | part {front : List Token} {before : String} (outer : TypeWords front before) (text : String)
      (arguments : List Token) (closed : isTypeArguments arguments = true) :
      TypeWords (front ++ .dot :: word text :: arguments) (before ++ "." ++ text ++ argumentText arguments)

/-- A class type. -/
structure TypeRef.Regular (type : TypeRef) : Prop where
  spelled : TypeWords type.print type.text
  whole : Whole type.print
  named : type.print.head? ≠ some (word "final")

theorem TypeRef.print_simple {name : String} (spelled : (word name).isWhole = true) (span : Span) :
    (TypeRef.mk name span).print = [word name] := by
  have cut := tokens_spaced (.one spelled)
  rwa [spaced,List.map_singleton,List.intercalate_singleton] at cut

/-- A single name is a class type. -/
theorem TypeRef.Regular.simple {name : String} (spelled : (word name).isWhole = true) (free : name ≠ "final")
    (span : Span) : (TypeRef.mk name span).Regular where
  spelled := by
    rw [TypeRef.print_simple spelled]
    simpa [argumentText] using TypeWords.name name [] rfl
  whole := by
    rw [TypeRef.print_simple spelled]
    exact .one spelled
  named := by
    rw [TypeRef.print_simple spelled]
    exact fun bad => free (congrArg Token.text (Option.some.inj bad))

def Expr.isInstanceOf : Expr → Bool
  | .instanceOf _ _ _ => true
  | _ => false

/-- The trees that can be written without more parentheses than they have: every operand holds
together at least as tightly as its place asks for. -/
inductive Expr.Regular : Expr → Prop where
  | name (text : String) (span : Span) (spelled : (word text).isWhole = true) (free : text ∉ keywords) :
      Regular (.name text span)
  | literal (kind : LiteralKind) (value : String) (span : Span) (spelled : kind.isSpelled value = true) :
      Regular (.literal kind value span)
  | this (span : Span) : Regular (.this span)
  | super (span : Span) : Regular (.super span)
  | call {callee : Expr} {args : List Expr} (span : Span) (called : ExprLevel.isCallee callee = true)
      (first : Regular callee) (others : ∀ arg ∈ args, Regular arg) : Regular (.call callee args span)
  | create {outer : Option Expr} {type : TypeRef} {args : List Expr} (span : Span) (created : type.Regular)
      (tight : ∀ e ∈ outer, 13 ≤ e.rank) (first : ∀ e ∈ outer, Regular e) (others : ∀ arg ∈ args, Regular arg) :
      Regular (.create outer type args [] none none span)
  | field {receiver : Expr} (member : Ident) (span : Span) (spelled : (word member.text).isWhole = true)
      (free : member.text ≠ "new") (tight : 13 ≤ receiver.rank) (first : Regular receiver) :
      Regular (.field receiver member span)
  | index {array position : Expr} (span : Span) (tight : 13 ≤ array.rank) (first : Regular array)
      (second : Regular position) : Regular (.index array position span)
  | leading (op : UnaryOp) {operand : Expr} (span : Span) (tight : 12 ≤ operand.rank) (first : Regular operand) :
      Regular (.unary op true operand span)
  | trailing {op : UnaryOp} {operand : Expr} (span : Span) (counts : op = .increment ∨ op = .decrement)
      (tight : 13 ≤ operand.rank) (first : Regular operand) : Regular (.unary op false operand span)
  | binary (op : BinaryOp) {left right : Expr} (span : Span) (before : op.precedence + 1 ≤ left.rank)
      (behind : op.precedence + 1 < right.rank) (untested : op = .less → left.isInstanceOf = false)
      (first : Regular left) (second : Regular right) : Regular (.binary op left right span)
  | instanceOf {operand : Expr} {type : TypeRef} (span : Span) (tested : type.Regular) (tight : 8 ≤ operand.rank)
      (first : Regular operand) : Regular (.instanceOf operand type span)
  | assign (op : AssignOp) {left right : Expr} (span : Span) (before : 1 ≤ left.rank) (first : Regular left)
      (second : Regular right) : Regular (.assign op left right span)
  | conditional {condition yes no : Expr} (span : Span) (before : 2 ≤ condition.rank) (behind : 1 ≤ no.rank)
      (first : Regular condition) (second : Regular yes) (third : Regular no) :
      Regular (.conditional condition yes no span)
  | paren {inner : Expr} (span : Span) (first : Regular inner) : Regular (.paren inner span)

/-! Where the parts of a tree stand among its tokens. -/

namespace Expr

/-- The span of `count` tokens from token `i` on, between boundaries. -/
def spanning (i count : Nat) : Span := ⟨2 * i + 1,2 * (i + count)⟩

mutual

/-- The tree with the spans it takes up when its tokens stand from token `i` on. -/
def placed (i : Nat) (e : Expr) : Expr :=
  match e with
  | .name text _ => .name text (spanning i 1)
  | .literal kind value _ => .literal kind value (spanning i 1)
  | .this _ => .this (spanning i 1)
  | .super _ => .super (spanning i 1)
  | .missing span => .missing span
  | .call callee args _ =>
    .call (callee.placed i) (placedAll (i + callee.print.length + 1) args) (spanning i e.print.length)
  | .create outer type args dims initializer body _ =>
    let named := i + (printOuter outer).length + 1
    .create (placedOuter i outer) ⟨type.text,spanning named type.print.length⟩
      (placedAll (named + type.print.length + 1) args) dims initializer body (spanning i e.print.length)
  | .field receiver member _ =>
    .field (receiver.placed i) ⟨member.text,spanning (i + receiver.print.length + 1) 1⟩ (spanning i e.print.length)
  | .index array position _ =>
    .index (array.placed i) (position.placed (i + array.print.length + 1)) (spanning i e.print.length)
  | .unary op leading operand _ =>
    .unary op leading (operand.placed (if leading then i + 1 else i)) (spanning i e.print.length)
  | .binary op left right _ =>
    .binary op (left.placed i) (right.placed (i + left.print.length + 1)) (spanning i e.print.length)
  | .instanceOf operand type _ =>
    .instanceOf (operand.placed i) ⟨type.text,spanning (i + operand.print.length + 1) type.print.length⟩
      (spanning i e.print.length)
  | .assign op left right _ =>
    .assign op (left.placed i) (right.placed (i + left.print.length + 1)) (spanning i e.print.length)
  | .conditional condition yes no _ =>
    let chosen := i + condition.print.length + 1
    .conditional (condition.placed i) (yes.placed chosen) (no.placed (chosen + yes.print.length + 1))
      (spanning i e.print.length)
  | .paren inner _ => .paren (inner.placed (i + 1)) (spanning i e.print.length)
  | .arrayInit elements span => .arrayInit elements span

def placedAll (i : Nat) : List Expr → List Expr
  | [] => []
  | first :: rest => first.placed i :: placedAll (i + first.print.length + 1) rest

def placedOuter (i : Nat) : Option Expr → Option Expr
  | none => none
  | some outer => some (outer.placed i)

end

/-- The tree without its ranges. -/
def bare (e : Expr) : Expr := e.mapSpans fun _ => .empty 0

variable {e : Expr} {args : List Expr}

theorem Regular.placed_span (regular : e.Regular) (i : Nat) : (e.placed i).span = spanning i e.print.length := by
  cases regular <;> simp [placed,span,print]

theorem placedAll_bare (same : ∀ arg ∈ args, ∀ i, (arg.placed i).bare = arg.bare) (i : Nat) :
    (placedAll i args).map bare = args.map bare := by
  induction args generalizing i with
  | nil => rfl
  | cons first rest ih =>
    rw [placedAll,List.map_cons,List.map_cons,same first List.mem_cons_self,
      ih fun arg member => same arg (List.mem_cons_of_mem _ member)]

/-- Other ranges make no other tree. -/
theorem mapSpans_bare (f : Span → Span) : (∀ e : Expr, (e.mapSpans f).bare = e.bare) ∧
    (∀ value : Option Expr, mapSpansOption (fun _ => .empty 0) (mapSpansOption f value) =
      mapSpansOption (fun _ => .empty 0) value) ∧
    ∀ list : List Expr,
      mapSpansAll (fun _ => .empty 0) (mapSpansAll f list) = mapSpansAll (fun _ => .empty 0) list := by
  apply Expr.induction_all
  all_goals intros
  all_goals simp_all [bare,mapSpans,mapSpansOption,mapSpansAll,Ident.mapSpans,TypeRef.mapSpans,Function.comp_def]

/-- Placing a tree changes its ranges only. -/
theorem Regular.placed_bare (regular : e.Regular) : ∀ i, (e.placed i).bare = e.bare := by
  have all (args : List Expr) : mapSpansAll (fun _ => .empty 0) args = args.map bare := mapSpansAll_eq_map _ args
  induction regular with
  | call span called first others one each =>
    intro i
    simp only [bare,placed,mapSpans,all,placedAll_bare each] at one ⊢
    rw [one]
  | @create outer type args span created tight first others one each =>
    intro i
    have qualified : mapSpansOption (fun _ => .empty 0) (placedOuter i outer) =
        mapSpansOption (fun _ => .empty 0) outer := by
      cases outer with
      | none => rfl
      | some value => exact congrArg some (one value rfl i)
    simp only [bare,placed,mapSpans,all,placedAll_bare each,qualified,TypeRef.mapSpans,Option.map_none]
  | _ => intros; simp_all [bare,placed,mapSpans,Ident.mapSpans,TypeRef.mapSpans]

/-! What the printed tokens are. -/

theorem printAll_whole (each : ∀ arg ∈ args, Whole arg.print) : Whole (printAll args) := by
  induction args with
  | nil => exact nofun
  | cons first rest ih =>
    have one := each first List.mem_cons_self
    cases rest with
    | nil => exact one
    | cons next rest =>
      exact one.append (.cons (by decide) (ih fun arg member => each arg (List.mem_cons_of_mem _ member)))

theorem Regular.whole (regular : e.Regular) : Whole e.print := by
  have arguments {args : List Expr} (each : ∀ arg ∈ args, Whole arg.print) :
      Whole (.parenOpen :: (printAll args ++ [.parenClose])) :=
    .cons (by decide) ((printAll_whole each).append (.one (by decide)))
  induction regular with
  | name text span spelled free => exact .one spelled
  | literal kind value span spelled =>
    cases kind with
    | number | string | char => exact .one spelled
    | bool =>
      rcases (Bool.or_eq_true _ _).mp spelled with yes | no
      · rw [eq_of_beq yes]
        exact .one (by decide)
      · rw [eq_of_beq no]
        exact .one (by decide)
    | null =>
      rw [eq_of_beq spelled]
      exact .one (by decide)
  | this | super => exact .one (by decide)
  | call span called first others one each => exact one.append (arguments each)
  | @create outer type args span created tight first others one each =>
    have qualified : Whole (printOuter outer) := by
      cases outer with
      | none => exact nofun
      | some value => exact (one value rfl).append (.one (by decide))
    exact qualified.append (.cons (by decide) (created.whole.append (arguments each)))
  | field member span spelled free tight first one => exact one.append (.cons (by decide) (.one spelled))
  | index span tight first second one other =>
    exact one.append (.cons (by decide) (other.append (.one (by decide))))
  | leading op span tight first one => exact .cons (by cases op <;> decide) one
  | @trailing op operand span counts tight first one => exact one.append (.one (by cases op <;> decide))
  | binary op span before behind untested first second one other =>
    exact one.append (.cons (by cases op <;> decide) other)
  | instanceOf span tested tight first one => exact one.append (.cons (by decide) tested.whole)
  | assign op span before first second one other => exact one.append (.cons (by cases op <;> decide) other)
  | conditional span before behind first second third one other last =>
    exact one.append (.cons (by decide) (other.append (.cons (by decide) last)))
  | paren span first one => exact .cons (by decide) (one.append (.one (by decide)))

/-- There is a first token, and it closes nothing; where the tokens are to be primary, it is no
operator. -/
def Opens (primary : Prop) (words : List Token) : Prop := ∃ token rest, words = token :: rest ∧
  token.kind ∉ ExprLevel.closers ∧ (primary → ExprLevel.leadingOp token.kind = none)

theorem Opens.append {first second : Prop} {words : List Token} (opens : Opens first words) (need : second → first)
    (more : List Token) : Opens second (words ++ more) := by
  obtain ⟨token,rest,rfl,closing,leading⟩ := opens
  exact ⟨token,rest ++ more,rfl,closing,fun asked => leading (need asked)⟩

theorem rank_of_isCallee {callee : Expr} (called : ExprLevel.isCallee callee = true) : 13 ≤ callee.rank := by
  cases callee <;> first | exact Nat.le_refl 13 | cases called

/-- Only an expression that holds together less tightly than a primary one begins with an operator. -/
theorem Regular.opens (regular : e.Regular) : Opens (13 ≤ e.rank) e.print := by
  have token (kind : Token.Kind) {text : String} {primary : Prop} (rest : List Token)
      (closing : kind ∉ ExprLevel.closers := by decide) (leading : ExprLevel.leadingOp kind = none := by rfl) :
      Opens primary (⟨kind,text⟩ :: rest) := ⟨_,rest,rfl,closing,fun _ => leading⟩
  induction regular with
  | name | this | super => exact token .ident []
  | literal kind value span spelled =>
    cases kind with
    | number => exact token .number []
    | string => exact token .string []
    | char => exact token .char []
    | bool | null => exact token .ident []
  | call span called first others one each => exact one.append (fun _ => rank_of_isCallee called) _
  | @create outer type args span created tight first others one each =>
    cases outer with
    | none => exact token .ident _
    | some value => exact ((one value rfl).append (fun _ => tight value rfl) _).append id _
  | field member span spelled free tight first one => exact one.append (fun _ => tight) _
  | index span tight first second one other => exact one.append (fun _ => tight) _
  | leading op span tight first one =>
    exact ⟨op.token,_,rfl,by cases op <;> decide,fun high => by simp [rank] at high⟩
  | trailing span counts tight first one => exact one.append (fun _ => tight) _
  | @binary op left right span before behind untested first second one other =>
    have low := op.precedence_le
    exact one.append (fun high => by simp only [rank] at high; omega) _
  | instanceOf span tested tight first one => exact one.append (fun high => by simp [rank] at high) _
  | assign op span before first second one other => exact one.append (fun high => by simp [rank] at high) _
  | conditional span before behind first second third one other last =>
    exact one.append (fun high => by simp [rank] at high) _
  | paren span first one => exact token .parenOpen _

end Expr
end Transplant.Java
