import Transplant.Proofs.Java.Boundaries
import Transplant.Proofs.Java.Rows

/-! What is read can be told apart by its parts: no name is spelled like `this` or `super`, a member
reaches from its receiver to its name, which stands behind a dot, and a declaration declares at least
one variable. -/
namespace Transplant.Java

open Token (Kind)
open Reads

section

variable (before : Nat → Nat → Prop)

mutual

/-- Of an expression and all expressions inside it: the names are no references to the instance, and
the name of a member stands behind its receiver, as `before` tells. -/
def Expr.Linked : Expr → Prop
  | .name text _ => text ≠ "this" ∧ text ≠ "super"
  | .literal _ _ _ => True
  | .this _ => True
  | .super _ => True
  | .missing _ => True
  | .call callee args _ => callee.Linked ∧ Expr.LinkedAll args
  | .create outer _ args dims initializer _ _ =>
    Expr.LinkedOption outer ∧ Expr.LinkedAll args ∧ Expr.LinkedAll dims ∧ Expr.LinkedOption initializer
  | .field receiver member span => receiver.Linked ∧
    span = ⟨receiver.span.start,member.span.stop⟩ ∧ before receiver.span.stop member.span.start
  | .index array position _ => array.Linked ∧ position.Linked
  | .unary _ _ operand _ => operand.Linked
  | .binary _ left right _ => left.Linked ∧ right.Linked
  | .instanceOf operand _ _ => operand.Linked
  | .assign _ left right _ => left.Linked ∧ right.Linked
  | .conditional condition yes no _ => condition.Linked ∧ yes.Linked ∧ no.Linked
  | .paren inner _ => inner.Linked
  | .arrayInit elements _ => Expr.LinkedAll elements

def Expr.LinkedAll : List Expr → Prop
  | [] => True
  | first :: rest => first.Linked ∧ Expr.LinkedAll rest

def Expr.LinkedOption : Option Expr → Prop
  | none => True
  | some value => value.Linked

end

/-- At least one variable, and their values. -/
def Declarator.LinkedAll (list : List Declarator) : Prop :=
  list ≠ [] ∧ ∀ declarator ∈ list, Expr.LinkedOption before declarator.initializer

mutual

def Stmt.Linked : Stmt → Prop
  | .declare _ declarators _ => Declarator.LinkedAll before declarators
  | .expr value _ => value.Linked before
  | .returns value _ => Expr.LinkedOption before value
  | .throws value _ => value.Linked before
  | .ifElse condition yes no _ => condition.Linked before ∧ yes.Linked ∧ Stmt.LinkedOption no
  | .whileLoop condition body _ => condition.Linked before ∧ body.Linked
  | .forLoop init condition update body _ =>
    Stmt.LinkedAll init ∧ Expr.LinkedOption before condition ∧ Expr.LinkedAll before update ∧ body.Linked
  | .forEach _ iterable body _ => iterable.Linked before ∧ body.Linked
  | .tryCatch body catches cleanup _ => body.Linked ∧ Catch.LinkedAll catches ∧ Block.LinkedOption cleanup
  | .block body => body.Linked
  | .breaks _ => True
  | .continues _ => True
  | .empty _ => True
  | .unsupported _ => True

def Stmt.LinkedAll : List Stmt → Prop
  | [] => True
  | first :: rest => first.Linked ∧ Stmt.LinkedAll rest

def Stmt.LinkedOption : Option Stmt → Prop
  | none => True
  | some stmt => stmt.Linked

def Block.Linked : Block → Prop
  | ⟨statements,_⟩ => Stmt.LinkedAll statements

def Block.LinkedOption : Option Block → Prop
  | none => True
  | some block => block.Linked

def Catch.Linked : Catch → Prop
  | ⟨_,body,_⟩ => body.Linked

def Catch.LinkedAll : List Catch → Prop
  | [] => True
  | first :: rest => first.Linked ∧ Catch.LinkedAll rest

end

end

section

variable {before after : Nat → Nat → Prop} {f : Nat → Nat}
  (kept : ∀ first second, before first second → after (f first) (f second))

include kept

/-- A change of spans that keeps the order keeps the links. -/
theorem Expr.linked_mapSpans_all :
    (∀ e : Expr, e.Linked before → (e.mapSpans (Span.map f)).Linked after) ∧
    (∀ value, Expr.LinkedOption before value →
      Expr.LinkedOption after (Expr.mapSpansOption (Span.map f) value)) ∧
    ∀ list, Expr.LinkedAll before list → Expr.LinkedAll after (Expr.mapSpansAll (Span.map f) list) := by
  apply Expr.induction_all
  case field =>
    intro receiver member span inner linked
    obtain ⟨inside,place,behind⟩ := linked
    refine ⟨inner inside,?_,?_⟩
    · rw [Expr.mapSpans_span,place]
      rfl
    · rw [Expr.mapSpans_span]
      exact kept _ _ behind
  all_goals intros
  all_goals simp_all only [Expr.mapSpans,Expr.mapSpansAll,Expr.mapSpansOption,Expr.Linked,Expr.LinkedAll,
    Expr.LinkedOption,ne_eq,not_false_eq_true,and_self]

theorem Declarator.LinkedAll.mapSpans {list : List Declarator} (linked : LinkedAll before list) :
    LinkedAll after (list.map (Declarator.mapSpans (Span.map f))) := by
  refine ⟨by simpa using linked.1,List.forall_mem_map.mpr fun declarator listed => ?_⟩
  have value := (Expr.linked_mapSpans_all kept).2.1 declarator.initializer (linked.2 declarator listed)
  rwa [Expr.mapSpansOption_eq] at value

theorem Stmt.linked_mapSpans_all :
    (∀ s : Stmt, s.Linked before → (s.mapSpans (Span.map f)).Linked after) ∧
    (∀ value, Block.LinkedOption before value →
      Block.LinkedOption after (Block.mapSpansOption (Span.map f) value)) ∧
    (∀ b : Block, b.Linked before → (b.mapSpans (Span.map f)).Linked after) ∧
    (∀ list, Stmt.LinkedAll before list → Stmt.LinkedAll after (Stmt.mapSpansAll (Span.map f) list)) ∧
    (∀ list, Catch.LinkedAll before list → Catch.LinkedAll after (Catch.mapSpansAll (Span.map f) list)) ∧
    (∀ clause : Catch, clause.Linked before → (clause.mapSpans (Span.map f)).Linked after) ∧
    ∀ value, Stmt.LinkedOption before value →
      Stmt.LinkedOption after (Stmt.mapSpansOption (Span.map f) value) := by
  have declared (list : List Declarator) (linked : Declarator.LinkedAll before list) :
      Declarator.LinkedAll after (list.map (Declarator.mapSpans (Span.map f))) := linked.mapSpans kept
  have values := Expr.linked_mapSpans_all kept
  simp only [Expr.mapSpansOption_eq,Expr.mapSpansAll_eq_map] at values
  apply Stmt.induction_all
  all_goals intros
  all_goals simp_all only [Stmt.mapSpans,Stmt.mapSpansAll,Stmt.mapSpansOption,Block.mapSpans,
    Block.mapSpansOption,Catch.mapSpans,Catch.mapSpansAll,Stmt.Linked,Stmt.LinkedAll,Stmt.LinkedOption,
    Block.Linked,Block.LinkedOption,Catch.Linked,Catch.LinkedAll,and_self]

end

/-- A token stands between two boundaries of so many tokens. -/
def Parted (count first second : Nat) : Prop := TokenBetween count first second ∧ second ≤ 2 * count + 1

variable {tokens : List Token} {i j k l m : Nat}

def Expr.Links (tokens : List Token) (e : Expr) : Prop := e.Linked (Parted tokens.length)

def Expr.LinksAll (tokens : List Token) (list : List Expr) : Prop := LinkedAll (Parted tokens.length) list

def Expr.LinksOption (tokens : List Token) (value : Option Expr) : Prop :=
  LinkedOption (Parted tokens.length) value

theorem Expr.LinksAll.append_one {list : List Expr} {e : Expr} (first : LinksAll tokens list)
    (last : e.Links tokens) : LinksAll tokens (list ++ [e]) := by
  induction list with
  | nil => exact ⟨last,trivial⟩
  | cons other rest ih => exact ⟨first.1,ih first.2⟩

theorem Expr.links_word (word : String) (span : Span) : Links tokens (ExprLevel.wordExpr word span) := by
  unfold ExprLevel.wordExpr
  split
  · trivial
  · split
    · trivial
    · split
      · trivial
      · split
        · trivial
        · exact ⟨‹_›,‹_›⟩

/-! Lists of which something holds wherever their items stand. -/

namespace Reads

variable {α : Type} {item : Parser (Option α)} (all : List α → Prop) {stops : List Kind}

theorem everyMany (nil : all [])
    (each : ∀ k, Reads tokens item k fun next _ => ∀ a, next = some a → ∀ list, all list → all (a :: list)) :
    Reads tokens (Parser.many item) i fun list _ => all list := by
  refine bounded fun turns enough => ?_
  clear enough
  induction turns generalizing i with
  | zero => exact pure nil
  | succ turns ih =>
    refine bind (each i) fun next m given _ => ?_
    cases next with
    | none => exact pure nil
    | some a => exact bind ih fun list _ rest _ => pure (given a rfl list rest)

theorem everyGathered (nil : all [])
    (each : ∀ k, Reads tokens item k fun next _ => ∀ a, next = some a → ∀ list, all list → all (a :: list)) :
    Reads tokens (Parser.gathered stops item) i fun list _ => all list := by
  refine bounded fun turns enough => ?_
  clear enough
  induction turns generalizing i with
  | zero => exact pure nil
  | succ turns ih =>
    refine get ?_
    split
    · exact pure nil
    · rename_i going
      simp only [Bool.or_eq_true,not_or,Cursor.on_atEnd_iff] at going
      refine bind (each i) fun next m given _ => get ?_
      have rest (k : Nat) : Reads tokens (do return next.toList ++ (← Parser.gather stops item turns)) k
          fun list _ => all list := by
        refine bind ih fun list _ behind _ => pure ?_
        cases next with
        | none => exact behind
        | some a => exact given a rfl list behind
      refine ite (fun same => ?_) fun _ => rest m
      cases (show m = i from same)
      exact skip 1 (Nat.lt_of_not_le going.1) (rest _)

end Reads

/-- What the readers give is linked. -/
structure ExprReaders.Link (tokens : List Token) (inner : ExprReaders) : Prop where
  expr : ∀ i, Reads tokens inner.expr i fun e _ => e.Links tokens
  conditional : ∀ i, Reads tokens inner.conditional i fun e _ => e.Links tokens
  binary : ∀ least i, Reads tokens (inner.binary least) i fun e _ => e.Links tokens
  unary : ∀ i, Reads tokens inner.unary i fun e _ => e.Links tokens
  initializer : ∀ i, Reads tokens inner.initializer i fun e _ => e.Links tokens

namespace ExprLevel

open Java.Expr (Links LinksAll LinksOption)

theorem unread_links (close : Kind) : Reads tokens (unread close) i fun e _ => e.Links tokens :=
  nextStart (bind (skipOutside _ _) fun _ _ _ _ => spanFrom (pure trivial))

theorem separated_links {item : Parser Expr} (stops : List Kind)
    (each : ∀ k, Reads tokens item k fun e _ => e.Links tokens) :
    Reads tokens (Parser.separated stops item) i fun list _ => LinksAll tokens list :=
  separated (fun list _ _ => LinksAll tokens list) (fun _ => trivial)
    (fun _ _ _ _ _ first rest => ⟨first,rest⟩) (fun _ _ _ _ rest => rest) each

variable {inner : ExprReaders} (link : inner.Link tokens)

include link

theorem argList_links : Reads tokens (argList inner) i fun args _ => LinksAll tokens args := by
  refine bind expectOn.discard fun _ k _ _ => bind (separated_links _ link.expr) fun args l read _ => get ?_
  have closed (all : List Expr) (m : Nat) (read : LinksAll tokens all) : Reads tokens (do
      discard (Parser.expect .parenClose)
      return all) m fun args _ => LinksAll tokens args :=
    bind expectOn.discard fun _ _ _ _ => pure read
  exact ite (fun _ => closed args l read) fun _ =>
    bind (unread_links _) fun _ m last _ => closed _ m (read.append_one last)

theorem arrayInit_links : Reads tokens (arrayInit inner) i fun e _ => e.Links tokens := by
  refine bind expectOn fun brace k _ _ => bind (separated_links _ link.initializer) fun elements l read _ => ?_
  have closed (all : List Expr) (m : Nat) (read : LinksAll tokens all) : Reads tokens (do
      discard (Parser.expect .braceClose)
      return .arrayInit all (← Parser.spanFrom brace.span.start)) m fun (e : Expr) _ => e.Links tokens :=
    bind expectOn.discard fun _ _ _ _ => spanFrom (pure read)
  exact sees (fun _ => closed elements l read) fun _ =>
    bind (unread_links _) fun _ m last _ => closed _ m (read.append_one last)

theorem arrayDims_links : Reads tokens (arrayDims inner) i fun dims _ => LinksAll tokens (dims.filterMap id) := by
  refine everyMany (fun dims => LinksAll tokens (dims.filterMap id)) trivial fun k => ?_
  refine eat (fun _ => ?_) fun _ => pure nofun
  have closed (length : Option Expr) (l : Nat) (read : LinksOption tokens length) :
      Reads tokens (do discard (Parser.expect .bracketClose); return some length) l fun next _ =>
        ∀ dim, next = some dim → ∀ list : List (Option Expr),
          LinksAll tokens (list.filterMap id) → LinksAll tokens ((dim :: list).filterMap id) := by
    refine bind expectOn.discard fun _ m _ _ => pure ?_
    rintro _ ⟨⟩ list rest
    cases length with
    | none => exact rest
    | some e => exact ⟨read,rest⟩
  exact sees (fun _ => closed none _ trivial) fun _ =>
    bind (link.expr _) fun e l read _ => closed (some e) l read

theorem creation_links {outer : Option Expr} {start : Nat}
    (first : LinksOption tokens outer) :
    Reads tokens (creation inner outer start) i fun e _ => e.Links tokens := by
  refine bind (skipNested _ _) fun _ k _ _ => bind typeRefOrEmpty fun type l _ _ => ?_
  refine sees (fun _ => ?_) fun _ => ?_
  · refine bind (argList_links link) fun args m read _ => nextStart (sees (fun _ => ?_) fun _ => ?_)
    · refine bind (skipNested _ _) fun _ j _ _ => spanFrom (spanFrom (pure ?_))
      exact ⟨first,read,trivial,trivial⟩
    · exact spanFrom (pure ⟨first,read,trivial,trivial⟩)
  · refine bind (arrayDims_links link) fun dims m read _ => ?_
    have finish (initializer : Option Expr) (j : Nat) (last : LinksOption tokens initializer) :
        Reads tokens (do
          return .create outer type [] (dims.filterMap id) initializer none (← Parser.spanFrom start))
          j fun (e : Expr) _ => e.Links tokens :=
      spanFrom (pure ⟨first,trivial,read,last⟩)
    exact sees (fun _ => bind (arrayInit_links link) fun e j last _ => finish (some e) j last) fun _ =>
      finish none m trivial

theorem parenthesized_links {start : Nat} :
    Reads tokens (parenthesized inner start) i fun e _ => e.Links tokens := by
  refine bind (link.expr _) fun content k read _ => bind expectOn.discard fun _ l _ _ => get ?_
  exact ite (fun _ => bind (link.unary _) fun _ _ _ _ => pure trivial) fun _ => spanFrom (pure read)

theorem primary_links : Reads tokens (primary inner) i fun e _ => e.Links tokens := by
  refine get ?_
  split
  · exact pure trivial
  · rename_i token found
    rw [Cursor.on_next?] at found
    have here := (List.getElem?_eq_some_iff.mp found).1
    refine ite (fun _ => pure trivial) fun _ => skip 1 here ?_
    split
    · refine ite (fun _ => creation_links link trivial) fun _ => pure (Expr.links_word _ _)
    · exact pure trivial
    · exact pure trivial
    · exact pure trivial
    · exact parenthesized_links link
    · exact pure trivial

/-- A member behind an expression is linked to it by the dot between them. -/
theorem postfixStep_links (e : Expr) (place : e.Read tokens i k)
    (read : e.Links tokens) :
    Reads tokens (postfixStep inner e) k fun next _ => (next.getD e).Links tokens := by
  have behind : Reads tokens (do
      if ← Parser.eat .bracketOpen then
        let position ← inner.expr
        discard (Parser.expect .bracketClose)
        return some (.index e position (← Parser.spanFrom e.span.start))
      else if ← Parser.eat .increment then
        return some (.unary .increment false e (← Parser.spanFrom e.span.start))
      else if ← Parser.eat .decrement then
        return some (.unary .decrement false e (← Parser.spanFrom e.span.start))
      else return none) k fun next _ => (next.getD e).Links tokens := by
    refine eat (fun _ => ?_) fun _ => eat (fun _ => ?_) fun _ => eat (fun _ => ?_) fun _ => pure read
    · refine bind (link.expr _) fun position l inside _ => bind expectOn.discard fun _ j _ _ => ?_
      exact spanFrom (pure ⟨read,inside⟩)
    · exact spanFrom (pure read)
    · exact spanFrom (pure read)
  unfold postfixStep
  refine eat (fun seen => eatWord (fun _ => ?_) fun _ => ?_) fun _ => sees (fun _ => ?_) fun _ => ?_
  · exact bind (creation_links link read) fun _ _ made _ => pure made
  · refine bind (skipNested _ _) fun _ l on _ => bind expect fun member j named bound => spanFrom (pure ?_)
    have dot := seen.lt
    have start := place.start
    have stop := place.stop
    have order := place.le
    refine ⟨read,?_,?_⟩
    · rcases named with ⟨_,_,_,rfl,rfl⟩ | ⟨_,rfl,rfl⟩
      · exact Span.upTo_eq (by omega)
      · exact Span.upTo_eq (by omega)
    · rcases named with ⟨_,_,_,rfl,rfl⟩ | ⟨_,rfl,rfl⟩
      · exact ⟨⟨k,dot,stop.2,show 2 * k + 2 ≤ 2 * l + 1 by omega⟩,show 2 * l + 1 ≤ _ by omega⟩
      · exact ⟨⟨k,dot,stop.2,show 2 * k + 2 ≤ 2 * j by omega⟩,show 2 * j ≤ _ by omega⟩
  · refine ite (fun _ => bind (argList_links link) fun args j all _ => spanFrom (pure ?_)) fun _ => behind
    exact ⟨read,all⟩
  · exact ite (fun isCallee => by simp at isCallee) fun _ => behind

theorem postfixed_links (sound : inner.Sound tokens) :
    Reads tokens (postfixed inner) i fun e _ => e.Links tokens := by
  refine bind ((primary_reads sound).and (primary_links link)) fun e k first _ => ?_
  refine (repeated (fun e k => e.Read tokens i k ∧ e.Links tokens) e first fun e l read => ?_).mono
    fun _ _ given _ => given.2
  exact (postfixStep_reads sound e read.1).and (postfixStep_links link e read.1 read.2)

theorem unary_links (sound : inner.Sound tokens) :
    Reads tokens (unary inner) i fun e _ => e.Links tokens := by
  refine get ?_
  split
  · rename_i op found
    have here := (operator_quiet rfl found).1
    exact skip 1 here (bind (link.unary _) fun operand j read _ => pure read)
  · exact postfixed_links link sound

theorem binaryStep_links (least : Nat) (left : Expr) (read : left.Links tokens) :
    Reads tokens (binaryStep inner least left) i fun next _ => (next.getD left).Links tokens := by
  refine get (ite (fun tested => ?_) fun _ => ?_)
  · simp only [Bool.and_eq_true,Cursor.on_seesWord_iff] at tested
    refine skip 1 tested.1.ident.lt (bind skipVariableModifiers fun _ k _ _ => ?_)
    refine bind typeRefOrEmpty fun type l _ _ => get ?_
    have finish (j : Nat) : Reads tokens (do
        return some (.instanceOf left type (← Parser.spanFrom left.span.start))) j
        fun next _ => (next.getD left).Links tokens := spanFrom (pure read)
    refine ite (fun named => ?_) fun _ => finish l
    simp only [Bool.and_eq_true,Cursor.on_sees_iff] at named
    exact skip 1 named.1.lt (finish (l + 1))
  · split
    · rename_i op precedence found
      have here := (operator_quiet rfl found).1
      refine ite (fun _ => pure read) fun _ => skip 1 here ?_
      exact bind (link.binary _ _) fun right j last _ => pure ⟨read,last⟩
    · exact pure read

theorem binary_links (sound : inner.Sound tokens) (least : Nat) :
    Reads tokens (binary inner least) i fun e _ => e.Links tokens :=
  bind (unary_links link sound) fun e _ read _ =>
    repeated (fun e _ => e.Links tokens) e read fun e _ first => binaryStep_links link least e first

theorem conditional_links (sound : inner.Sound tokens) :
    Reads tokens (conditional inner) i fun e _ => e.Links tokens := by
  refine bind (binary_links link sound 1) fun condition k read _ => eat (fun _ => ?_) fun _ => pure read
  refine bind (link.expr _) fun yes l first _ => bind expectOn.discard fun _ m _ _ => ?_
  exact bind (link.conditional _) fun no j second _ => pure ⟨read,first,second⟩

theorem expr_links (sound : inner.Sound tokens) :
    Reads tokens (expr inner) i fun e _ => e.Links tokens := by
  refine bind (conditional_links link sound) fun left k read _ => get ?_
  split
  · rename_i op found
    have here := (operator_quiet rfl found).1
    exact skip 1 here (bind (link.expr _) fun right j last _ => pure ⟨read,last⟩)
  · exact pure read

theorem initializer_links (sound : inner.Sound tokens) :
    Reads tokens (initializer inner) i fun e _ => e.Links tokens :=
  sees (fun _ => arrayInit_links link) fun _ => expr_links link sound

theorem next_links (sound : inner.Sound tokens) : (next inner).Link tokens where
  expr _ := expr_links link sound
  conditional _ := conditional_links link sound
  binary least _ := binary_links link sound least
  unary _ := unary_links link sound
  initializer _ := initializer_links link sound

omit link

theorem readers_link (depth : Nat) : (readers depth).Link tokens := by
  induction depth with
  | zero =>
    have nothing (i : Nat) : Reads tokens (do return Expr.missing (.empty (← Parser.nextStart))) i
        fun e _ => e.Links tokens := nextStart (pure trivial)
    exact ⟨nothing,nothing,fun _ => nothing,nothing,nothing⟩
  | succ depth ih => exact next_links ih (readers_sound depth)

end ExprLevel

namespace Parser

theorem expr_links : Reads tokens Parser.expr i fun e _ => e.Links tokens :=
  Reads.bounded fun turns _ => (ExprLevel.readers_link turns).expr i

theorem initializer_links : Reads tokens Parser.initializer i fun e _ => e.Links tokens :=
  Reads.bounded fun turns _ => (ExprLevel.readers_link turns).initializer i

end Parser

def Stmt.Links (tokens : List Token) (s : Stmt) : Prop := s.Linked (Parted tokens.length)

def Stmt.LinksAll (tokens : List Token) (list : List Stmt) : Prop := LinkedAll (Parted tokens.length) list

def Stmt.LinksOption (tokens : List Token) (value : Option Stmt) : Prop :=
  LinkedOption (Parted tokens.length) value

def Block.Links (tokens : List Token) (b : Block) : Prop := b.Linked (Parted tokens.length)

def Block.LinksOption (tokens : List Token) (value : Option Block) : Prop :=
  LinkedOption (Parted tokens.length) value

def Catch.Links (tokens : List Token) (clause : Catch) : Prop := clause.Linked (Parted tokens.length)

def Catch.LinksAll (tokens : List Token) (list : List Catch) : Prop := LinkedAll (Parted tokens.length) list

namespace StmtLevel

open Java.Expr (Links LinksAll LinksOption)

theorem terminated_links {start : Nat} {make : Span → Stmt} (made : ∀ span, (make span).Links tokens) :
    Reads tokens (terminated start make) i fun s _ => s.Links tokens := by
  refine eat (fun _ => spanFrom (pure (made _))) fun _ => bind (skipOutside _ _) fun _ k _ _ => ?_
  exact bind eaten.discard fun _ j _ _ => spanFrom (pure trivial)

theorem declarators_links (turns : Nat) : Reads tokens (declarators turns) i fun list _ =>
    (0 < turns → list ≠ []) ∧ ∀ declarator ∈ list, LinksOption tokens declarator.initializer := by
  induction turns generalizing i with
  | zero => exact pure ⟨nofun,nofun⟩
  | succ turns ih =>
    refine bind expectOn fun name k _ _ => bind dimensions.discard fun _ l _ _ => ?_
    have finish (initializer : Option Expr) (m : Nat) (read : LinksOption tokens initializer) :
        Reads tokens (do
          let declarator := ⟨name,initializer,← Parser.spanFrom name.span.start⟩
          if ← Parser.eat .comma then return declarator :: (← declarators turns)
          else return [declarator]) m fun (list : List Declarator) _ => (0 < turns + 1 → list ≠ []) ∧
            ∀ declarator ∈ list, LinksOption tokens declarator.initializer := by
      refine spanFrom (eat (fun _ => bind ih fun rest j others _ => pure ?_) fun _ => pure ?_)
      · exact ⟨fun _ => List.cons_ne_nil _ _,List.forall_mem_cons.mpr ⟨read,others.2⟩⟩
      · exact ⟨fun _ => List.cons_ne_nil _ _,List.forall_mem_cons.mpr ⟨read,nofun⟩⟩
    refine eat (fun _ => ?_) fun _ => finish none l trivial
    exact bind Parser.initializer_links fun e m read _ => finish (some e) m read

theorem localVariables_links : Reads tokens localVariables i fun found _ =>
    ∀ s, found = some s → s.Links tokens := by
  refine assume fun inside => get (bind skipVariableModifiers fun _ k _ _ => get ?_)
  refine ite (fun _ => set inside (pure nofun)) fun _ => bind typeRef fun found l _ short => ?_
  cases found with
  | none => exact set inside (pure nofun)
  | some type =>
    refine get (ite (fun _ => ?_) fun _ => set inside (pure nofun))
    refine bind (bounded fun turns enough => (declarators_links turns).mono fun list m read _ =>
      (⟨read.1 (by omega),read.2⟩ : Declarator.LinkedAll (Parted tokens.length) list)) fun list m read _ => ?_
    refine bind (terminated_links fun _ => read) fun s _ made _ => pure ?_
    exact fun _ same => Option.some.inj same ▸ made

/-- What a reader of statements gives is linked. -/
def Link (tokens : List Token) (inner : Parser (Option Stmt)) : Prop :=
  ∀ k, Reads tokens inner k fun found _ => ∀ s, found = some s → s.Links tokens

theorem parenCondition_links : Reads tokens parenCondition i fun e _ => e.Links tokens :=
  bind expectOn.discard fun _ _ _ _ => bind Parser.expr_links fun _ _ read _ =>
    bind expectOn.discard fun _ _ _ _ => pure read

theorem linksAll_exprs {values : List Expr} (read : LinksAll tokens values) :
    Stmt.LinksAll tokens (values.map fun value => .expr value value.span) := by
  induction values with
  | nil => trivial
  | cons e rest ih => exact ⟨read.1,ih read.2⟩

theorem loopInit_links : Reads tokens loopInit i fun list _ => Stmt.LinksAll tokens list := by
  refine bind localVariables_links fun found k given _ => ?_
  cases found with
  | none =>
    refine bind (ExprLevel.separated_links _ fun _ => Parser.expr_links) fun values l read _ => ?_
    exact bind expectOn.discard fun _ j _ _ => pure (linksAll_exprs read)
  | some s => exact pure ⟨given s rfl,trivial⟩

theorem caughtType_links (type : TypeRef) : Reads tokens (caughtType type) i fun _ _ => True := by
  refine eat (fun _ => bind typeRef fun found j _ _ => ?_) fun _ => pure trivial
  cases found with
  | none => exact pure trivial
  | some other => exact pure trivial

theorem jump_links {start : Nat} {make : Span → Stmt} (made : ∀ span, (make span).Links tokens) :
    Reads tokens (jump start make) i fun s _ => s.Links tokens :=
  bind eaten.discard fun _ _ _ _ => bind expectOn.discard fun _ _ _ _ => spanFrom (pure (made _))

section

variable {inner : Parser (Option Stmt)} (link : Link tokens inner)

include link

theorem block_links : Reads tokens (block inner) i fun b _ => b.Links tokens := by
  refine bind expectOn fun brace k _ _ => ?_
  refine bind (everyGathered (Stmt.LinksAll tokens) trivial fun l => (link l).mono
    fun found _ given _ s same list rest => ⟨given s same,rest⟩) fun statements l read _ => ?_
  exact bind expectOn.discard fun _ j _ _ => spanFrom (pure read)

theorem substatement_links : Reads tokens (substatement inner) i fun s _ => s.Links tokens := by
  refine get (bind (link i) fun found j given _ => ?_)
  cases found with
  | none => exact lastStop (pure trivial)
  | some s => exact get (ite (fun _ => lastStop (pure trivial)) fun _ => pure (given s rfl))

theorem ifElse_links {start : Nat} : Reads tokens (ifElse inner start) i fun s _ => s.Links tokens := by
  refine bind parenCondition_links fun condition k asked _ => ?_
  refine bind (substatement_links link) fun yes l taken _ => ?_
  have finish (no : Option Stmt) (j : Nat) (other : Stmt.LinksOption tokens no) :
      Reads tokens (do return .ifElse condition yes no (← Parser.spanFrom start)) j
        fun (s : Stmt) _ => s.Links tokens := spanFrom (pure ⟨asked,taken,other⟩)
  refine eatWord (fun _ => ?_) fun _ => finish none l trivial
  exact bind (substatement_links link) fun no j other _ => finish (some no) j other

theorem whileLoop_links {start : Nat} : Reads tokens (whileLoop inner start) i fun s _ => s.Links tokens :=
  bind parenCondition_links fun _ _ asked _ => bind (substatement_links link) fun _ _ repeated _ =>
    spanFrom (pure ⟨asked,repeated⟩)

theorem forLoop_links {start : Nat} : Reads tokens (forLoop inner start) i fun s _ => s.Links tokens := by
  refine bind expectOn.discard fun _ k _ _ => bind element_reads fun found l _ _ => ?_
  cases found with
  | none =>
    refine bind loopInit_links fun init m begins _ => ?_
    have finish (condition : Option Expr) (n : Nat) (asked : LinksOption tokens condition) :
        Reads tokens (do
          discard (Parser.expect .semicolon)
          let update ← Parser.separated [.parenClose] Parser.expr
          discard (Parser.expect .parenClose)
          let body ← substatement inner
          return .forLoop init condition update body (← Parser.spanFrom start)) n
          fun (s : Stmt) _ => s.Links tokens := by
      refine bind expectOn.discard fun _ a _ _ => ?_
      refine bind (ExprLevel.separated_links _ fun _ => Parser.expr_links) fun update b stepped _ => ?_
      refine bind expectOn.discard fun _ c _ _ => bind (substatement_links link) fun body j inside _ => ?_
      exact spanFrom (pure ⟨begins,asked,stepped,inside⟩)
    exact sees (fun _ => finish none m trivial) fun _ =>
      bind Parser.expr_links fun e n asked _ => finish (some e) n asked
  | some param =>
    refine bind Parser.expr_links fun iterable m asked _ => bind expectOn.discard fun _ n _ _ => ?_
    exact bind (substatement_links link) fun body j inside _ => spanFrom (pure ⟨asked,inside⟩)

theorem catchClause_links : Reads tokens (catchClause inner) i fun found _ =>
    ∀ clause, found = some clause → clause.Links tokens := by
  refine nextStart (eatWord (fun _ => ?_) fun _ => pure nofun)
  refine bind expectOn.discard fun _ k _ _ => bind skipVariableModifiers fun _ l _ _ => ?_
  refine bind typeRefOrEmpty fun type m _ _ => ?_
  refine bind (repeated (fun _ _ => True) type trivial fun type _ _ => caughtType_links type)
    fun type n _ _ => ?_
  refine bind expectOn fun name a _ _ => bind expectOn.discard fun _ b _ _ => ?_
  refine bind (block_links link) fun body j read _ => pure fun _ same => ?_
  exact Option.some.inj same ▸ read

theorem tryCatch_links {start : Nat} : Reads tokens (tryCatch inner start) i fun s _ => s.Links tokens := by
  refine bind (skipNested _ _) fun _ k _ _ => bind (block_links link) fun body l tried _ => ?_
  refine bind (everyMany (Catch.LinksAll tokens) trivial fun l => (catchClause_links link).mono
    fun found _ given _ clause same list rest => ⟨given clause same,rest⟩) fun clauses m caught _ => ?_
  have finish (cleanup : Option Block) (j : Nat) (last : Block.LinksOption tokens cleanup) :
      Reads tokens (do return .tryCatch body clauses cleanup (← Parser.spanFrom start)) j
        fun (s : Stmt) _ => s.Links tokens := spanFrom (pure ⟨tried,caught,last⟩)
  refine eatWord (fun _ => ?_) fun _ => finish none m trivial
  exact bind (block_links link) fun cleanup j last _ => finish (some cleanup) j last

theorem passUnsupported_links : Reads tokens (passUnsupported inner) i fun _ _ => True := by
  have passed (k : Nat) : Reads tokens (do
      Parser.skipNested .parenOpen .parenClose
      Parser.skipNested .braceOpen .braceClose
      return true) k fun _ _ => True :=
    bind (skipNested _ _) fun _ _ _ _ => bind (skipNested _ _) fun _ _ _ _ => pure trivial
  refine eatWord (fun _ => passed _) fun _ => eatWord (fun _ => passed _) fun _ => ?_
  refine eatWord (fun _ => bind (substatement_links link).discard fun _ k _ _ => ?_) fun _ => ?_
  · refine eatWord (fun _ => bind (skipNested _ _) fun _ _ _ _ => ?_) fun _ => ?_
    · exact bind expectOn.discard fun _ _ _ _ => pure trivial
    · exact bind expectOn.discard fun _ _ _ _ => pure trivial
  refine get (ite (fun _ => ?_) fun _ => ite (fun _ => ?_) fun _ => ite (fun labelled => ?_) fun _ => ?_)
  · exact bind (skipWhile _) fun _ _ _ _ => bind (skipNested _ _) fun _ _ _ _ => pure trivial
  · exact bind (skipOutside _ _) fun _ _ _ _ => bind expectOn.discard fun _ _ _ _ => pure trivial
  · simp only [Bool.and_eq_true,Cursor.on_sees_iff] at labelled
    rw [Cursor.on_skip 1 labelled.1.1.lt,Cursor.on_sees_iff] at labelled
    exact skip 2 labelled.1.2.lt (bind (substatement_links link).discard fun _ _ _ _ => pure trivial)
  · exact pure trivial

theorem stmt_links : Link tokens (stmt inner) := by
  intro i
  have found {read : Parser Stmt} (k : Nat) (given : Reads tokens read k fun s _ => s.Links tokens) :
      Reads tokens (do return some (← read)) k fun found _ => ∀ s, found = some s → s.Links tokens :=
    bind given fun s _ read _ => pure fun _ same => Option.some.inj same ▸ read
  refine get (ite (fun _ => pure nofun) fun _ => eat (fun _ => pure ?_) fun _ => sees (fun _ => ?_) fun _ => ?_)
  · rintro _ ⟨⟩
    trivial
  · exact bind (block_links link) fun body _ read _ => pure fun _ same => Option.some.inj same ▸ read
  refine eatWord (fun _ => ?_) fun _ => eatWord (fun _ => ?_) fun _ => ?_
  · have finish (value : Option Expr) (k : Nat) (read : LinksOption tokens value) :
        Reads tokens (do return some (← terminated (2 * i + 1) (.returns value))) k
          fun found _ => ∀ s, found = some s → s.Links tokens := found k (terminated_links fun _ => read)
    exact sees (fun _ => finish none _ trivial) fun _ =>
      bind Parser.expr_links fun e k read _ => finish (some e) k read
  · exact bind Parser.expr_links fun e k read _ => found k (terminated_links fun _ => read)
  refine eatWord (fun _ => found _ (ifElse_links link)) fun _ => ?_
  refine eatWord (fun _ => found _ (whileLoop_links link)) fun _ => ?_
  refine eatWord (fun _ => found _ (forLoop_links link)) fun _ => ?_
  refine eatWord (fun _ => found _ (tryCatch_links link)) fun _ => ?_
  refine eatWord (fun _ => found _ (jump_links fun _ => trivial)) fun _ => ?_
  refine eatWord (fun _ => found _ (jump_links fun _ => trivial)) fun _ => ?_
  refine bind (passUnsupported_links link) fun passed j _ _ => ?_
  cases passed with
  | true =>
    refine spanFrom (pure ?_)
    rintro _ ⟨⟩
    trivial
  | false =>
    refine bind localVariables_links fun found? k given _ => ?_
    cases found? with
    | some s => exact pure fun _ same => Option.some.inj same ▸ given s rfl
    | none => exact bind Parser.expr_links fun e l read _ => found l (terminated_links fun _ => read)

end

theorem reader_link (depth : Nat) : Link tokens (reader depth) := by
  induction depth with
  | zero => exact fun _ => pure nofun
  | succ depth ih => exact stmt_links ih

end StmtLevel

theorem Parser.stmt_links : Reads tokens Parser.stmt i fun found _ => ∀ s, found = some s → s.Links tokens :=
  Reads.bounded fun turns _ => StmtLevel.reader_link turns i

theorem Parser.block_links : Reads tokens Parser.block i fun b _ => b.Links tokens :=
  StmtLevel.block_links fun _ => Parser.stmt_links

end Transplant.Java
