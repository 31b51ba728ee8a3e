import Transplant.Proofs.Java.Type

/-! Reading expressions. Whatever expression is read, the visits on the way through it stand among
its tokens one behind the other, and its span begins with its first token and reaches its last. -/
namespace Transplant.Java

open Token (Kind)

variable {tokens : List Token} {i j k m : Nat}

/-- The expression is what stands from token `i` to before token `j`. -/
structure Expr.Read (tokens : List Token) (i : Nat) (e : Expr) (j : Nat) : Prop where
  start : e.span.start = 2 * i + 1
  order : e.span.start ≤ e.span.stop
  stop : 2 * j ≤ e.span.stop ∧ e.span.stop ≤ 2 * j + 1
  walked : ∀ visible access, Spelled tokens (e.walk visible access) i j

/-- Expressions with quiet tokens between them. -/
def Expr.ReadAll (tokens : List Token) (list : List Expr) (i j : Nat) : Prop :=
  ∀ visible, Spelled tokens (Expr.walkAll visible list) i j

namespace Expr

theorem Read.le {e : Expr} (read : Read tokens i e j) : i ≤ j := (read.walked [] .read).le

theorem ReadAll.nil (i : Nat) : ReadAll tokens [] i i := fun _ => .nil i

theorem ReadAll.cons (e : Expr) (list : List Expr) (i m j : Nat) (first : Read tokens i e m)
    (rest : ReadAll tokens list m j) : ReadAll tokens (e :: list) i j :=
  fun visible => (first.walked visible .read).append (rest visible)

theorem ReadAll.comma (list : List Expr) (i j : Nat) (seen : Seen tokens i .comma)
    (rest : ReadAll tokens list (i + 1) j) : ReadAll tokens list i j :=
  fun visible => .quiet (seen.quiet (by decide)) (rest visible)

theorem walkAll_append (visible : Locals) (first second : List Expr) :
    walkAll visible (first ++ second) = walkAll visible first ++ walkAll visible second := by
  induction first with
  | nil => rfl
  | cons e rest ih => simp only [List.cons_append,walkAll,ih,List.append_assoc]

theorem ReadAll.append_one {list : List Expr} {e : Expr} (first : ReadAll tokens list i m)
    (last : Read tokens m e j) : ReadAll tokens (list ++ [e]) i j := by
  intro visible
  rw [walkAll_append]
  exact (first visible).append (ReadAll.cons e [] m j j last (.nil j) visible)

theorem ReadAll.andQuiet {list : List Expr} (first : ReadAll tokens list i m)
    (last : Spelled tokens [] m j) : ReadAll tokens list i j := by
  intro visible
  simpa using (first visible).append last

/-- An expression that begins with its first token and ends with one of its parts or with its last
token. -/
theorem Read.of_span {e : Expr} {stop : Nat} (span : e.span = .upTo (2 * i + 1) stop)
    (reach : 2 * j ≤ stop ∧ stop ≤ 2 * j + 1)
    (walked : ∀ visible access, Spelled tokens (e.walk visible access) i j) : Read tokens i e j := by
  have order := (walked [] .read).le
  refine ⟨by rw [span,Span.upTo_start],by rw [span]; exact Span.upTo_ordered _ _,?_,walked⟩
  simp only [span,Span.upTo]
  omega

theorem Read.of_token {e : Expr} (span : e.span = ⟨2 * i + 1,2 * i + 2⟩)
    (walked : ∀ visible access, Spelled tokens (e.walk visible access) i (i + 1)) :
    Read tokens i e (i + 1) :=
  ⟨by rw [span],by simp [span],by simp only [span]; omega,walked⟩

/-- What could not be read covers its tokens. -/
theorem read_missing (order : i ≤ j) : Read tokens i (.missing (.upTo (2 * i + 1) (2 * j))) j :=
  .of_span rfl (by omega) fun _ _ => .one (.missing _ order)

theorem read_nothing (i : Nat) : Read tokens i (.missing (.empty (2 * i + 1))) i :=
  ⟨rfl,Nat.le_refl _,by simp [Expr.span,Span.empty],fun _ _ => .one (.missing _ (Nat.le_refl i))⟩

/-- An expression of one token. -/
theorem read_word (word : String) (seen : SeenWord tokens i word) :
    Read tokens i (ExprLevel.wordExpr word ⟨2 * i + 1,2 * i + 2⟩) (i + 1) := by
  have literal (passed : word ∈ passedWords) : Spelled tokens [] i (i + 1) :=
    .quiet (.word word seen passed) (.nil _)
  unfold ExprLevel.wordExpr
  split
  · rename_i same
    subst same
    exact .of_token rfl fun _ _ => .one (.this seen)
  · rename_i notThis
    split
    · rename_i same
      subst same
      exact .of_token rfl fun _ _ => .one (.super seen)
    · rename_i notSuper
      split
      · rename_i same
        refine .of_token rfl fun _ _ => literal ?_
        simp only [Bool.or_eq_true,decide_eq_true_eq] at same
        rcases same with rfl | rfl <;> decide
      · split
        · rename_i same
          subst same
          exact .of_token rfl fun _ _ => literal (by decide)
        · obtain ⟨token,found,same⟩ := seen
          simp only [Token.isWord,Bool.and_eq_true,beq_iff_eq] at same
          obtain ⟨ident,rfl⟩ := same
          exact .of_token rfl fun visible access => .one (.name token found ident visible access ⟨notThis,notSuper⟩)

/-- An expression with a single visit of one word is that word. -/
theorem Read.of_single {e : Expr} {visit : Visit} {word : String} (read : Read tokens i e k)
    (walked : e.walk [] .read = [visit]) (token : ∀ a b, Marks tokens visit a b →
      b = a + 1 ∧ e.span = ⟨2 * a + 1,2 * a + 2⟩ ∧ SeenWord tokens a word) :
    k = i + 1 ∧ e.span = ⟨2 * i + 1,2 * i + 2⟩ ∧ SeenWord tokens i word := by
  have spelled := read.walked [] .read
  rw [walked] at spelled
  obtain ⟨a,b,low,high,marks⟩ := spelled.single
  obtain ⟨after,span,seen⟩ := token a b marks
  have start := read.start
  have stop := read.stop
  rw [span] at start stop
  simp only at start stop
  obtain rfl : a = i := by omega
  exact ⟨by omega,span,seen⟩

/-- A call by a name, `this` or `super` is met at that token, another one at its receiver. -/
theorem read_call {callee : Expr} {args : List Expr} (read : Read tokens i callee k)
    (isCallee : ExprLevel.isCallee callee = true) (opened : Seen tokens k .parenOpen)
    (all : ReadAll tokens args k j) :
    Read tokens i (.call callee args (.upTo (2 * i + 1) (2 * j))) j := by
  have bare (word : String) (place : Span) (visible : Locals)
      (single : k = i + 1 ∧ place = ⟨2 * i + 1,2 * i + 2⟩ ∧ SeenWord tokens i word) :
      Spelled tokens (.call ⟨word,place⟩ args.length (.upTo (2 * i + 1) (2 * j)) :: walkAll visible args) i j := by
    obtain ⟨rfl,rfl,seen⟩ := single
    exact .mark (.call ⟨word,_⟩ _ _ opened rfl seen rfl) (all visible)
  have plain (visible : Locals) : Spelled tokens (callee.walk visible .read ++ walkAll visible args) i j :=
    (read.walked visible .read).append (all visible)
  refine .of_span rfl (by omega) fun visible _ => ?_
  cases callee with
  | name text place =>
    refine bare text place visible (read.of_single rfl fun a b marks => ?_)
    cases marks with
    | name token found ident => exact ⟨rfl,rfl,token,found,by simp [Token.isWord,ident]⟩
  | this place =>
    refine bare "this" place visible (read.of_single rfl fun a b marks => ?_)
    cases marks with
    | this seen => exact ⟨rfl,rfl,seen⟩
  | super place =>
    refine bare "super" place visible (read.of_single rfl fun a b marks => ?_)
    cases marks with
    | super seen => exact ⟨rfl,rfl,seen⟩
  | field receiver member span =>
    cases receiver with
    | this place => exact .mark (.callOnThis i _ _ _) (plain visible)
    | _ => exact plain visible
  | _ => simp [ExprLevel.isCallee] at isCallee

end Expr

/-- The readers that expressions inside expressions are read with do what `Expr.Read` says. -/
structure ExprReaders.Sound (tokens : List Token) (inner : ExprReaders) : Prop where
  expr : ∀ i, Reads tokens inner.expr i (Expr.Read tokens i)
  conditional : ∀ i, Reads tokens inner.conditional i (Expr.Read tokens i)
  binary : ∀ least i, Reads tokens (inner.binary least) i (Expr.Read tokens i)
  unary : ∀ i, Reads tokens inner.unary i (Expr.Read tokens i)
  initializer : ∀ i, Reads tokens inner.initializer i (Expr.Read tokens i)

namespace ExprLevel

open Reads
open Java.Expr (Read ReadAll)

theorem unread_reads (close : Kind) : Reads tokens (unread close) i (Read tokens i) := by
  refine nextStart (bind (skipOutside _ _) fun _ j ⟨on,_⟩ _ => spanFrom (pure ?_))
  exact Expr.read_missing on

theorem operator_quiet {α : Type} {op? : Kind → Option α} (word : op? .ident = none) {op : α}
    (found : (Cursor.on tokens i).next?.bind (fun token => op? token.kind) = some op) :
    i < tokens.length ∧ Quiet tokens i := by
  obtain ⟨token,here,given⟩ := Option.bind_eq_some_iff.mp found
  rw [Cursor.on_next?] at here
  refine ⟨(List.getElem?_eq_some_iff.mp here).1,.symbol token here ?_⟩
  intro ident
  rw [ident,word] at given
  cases given

variable {inner : ExprReaders} (sound : inner.Sound tokens)

include sound

theorem argList_reads : Reads tokens (argList inner) i fun args j => ReadAll tokens args i j := by
  refine bind (expectSymbol (by decide)) fun _ k opened _ => ?_
  refine bind (separated (ReadAll tokens) ReadAll.nil (fun e list k m j => ReadAll.cons e list k m j)
    ReadAll.comma sound.expr) fun args m read _ => get ?_
  have closed (all : List Expr) (l : Nat) (read : ReadAll tokens all k l) :
      Reads tokens (do discard (Parser.expect .parenClose); return all) l (ReadAll tokens · i ·) := by
    refine bind (expectSymbol (by decide)) fun _ j last _ => pure fun visible => ?_
    simpa using opened.append (read.andQuiet last visible)
  exact ite (fun _ => closed args m read) fun _ =>
    bind (unread_reads _) fun _ l last _ => closed _ l (read.append_one last)

theorem arrayInit_reads (opening : Seen tokens i .braceOpen) :
    Reads tokens (arrayInit inner) i (Read tokens i) := by
  refine bind expect fun brace k known _ => ?_
  rcases known with ⟨token,found,_,rfl,rfl⟩ | ⟨unseen,_⟩
  · refine bind (separated (ReadAll tokens) ReadAll.nil
      (fun e list k m j => ReadAll.cons e list k m j) ReadAll.comma sound.initializer)
      fun elements m read _ => ?_
    have closed (all : List Expr) (l : Nat) (read : ReadAll tokens all (i + 1) l) :
        Reads tokens (do
          discard (Parser.expect .braceClose)
          return .arrayInit all (← Parser.spanFrom (2 * i + 1))) l (Read tokens i) := by
      refine bind (expectSymbol (by decide)) fun _ j last _ => spanFrom (pure ?_)
      exact .of_span rfl (by omega) fun visible _ =>
        .quiet (opening.quiet (by decide)) (read.andQuiet last visible)
    exact sees (fun _ => closed elements m read) fun _ =>
      bind (unread_reads _) fun _ l last _ => closed _ l (read.append_one last)
  · exact absurd opening unseen

theorem arrayDims_reads : Reads tokens (arrayDims inner) i fun dims j =>
    ReadAll tokens (dims.filterMap id) i j := by
  refine many (fun dims k j => ReadAll tokens (dims.filterMap id) k j) ReadAll.nil fun k _ => ?_
  refine eat (fun opening => ?_) fun _ => pure ⟨Nat.le_refl k,fun _ => rfl,nofun⟩
  have closed (length : Option Expr) (l : Nat) (read : ReadAll tokens length.toList (k + 1) l) :
      Reads tokens (do discard (Parser.expect .bracketClose); return some length) l fun next m =>
        k ≤ m ∧ (next = none → m = k) ∧ ∀ dim, next = some dim → ∀ list j,
          ReadAll tokens (list.filterMap id) m j → ReadAll tokens ((dim :: list).filterMap id) k j := by
    refine bind (expectSymbol (by decide)) fun _ m last _ => pure ⟨?_,nofun,?_⟩
    · have := (read.andQuiet last []).le
      omega
    · intro dim same list j rest visible
      cases same
      have both := Spelled.quiet (opening.quiet (by decide))
        ((read.andQuiet last visible).append (rest visible))
      cases length with
      | none => exact both
      | some e => simpa [Expr.walkAll] using both
  exact sees (fun _ => closed none _ (ReadAll.nil _)) fun _ =>
    bind (sound.expr _) fun e l read _ => closed (some e) l (ReadAll.cons e [] _ l l read (.nil l))

/-- What stands behind `new`: the type that is created, and the parts of the creation. -/
def Created (tokens : List Token) (outer : Option Expr) (start i : Nat) (e : Expr) (j : Nat) : Prop :=
  i ≤ j ∧ ∃ type args dims initializer body span,
    e = .create outer type args dims initializer body span ∧ span = .upTo start (2 * j) ∧
    ∀ visible, Spelled tokens (.type type.span :: (Expr.walkAll visible args ++
      Expr.walkAll visible dims ++ Expr.walkOption visible initializer ++
      body.toList.map .anonymous)) i j

theorem creation_reads (outer : Option Expr) (start : Nat) (word : SeenWord tokens i "new") :
    Reads tokens (creation inner outer start) (i + 1) (Created tokens outer start (i + 1)) := by
  refine bind (skipArguments (.inr word)) fun _ k ⟨skipped,_⟩ _ => ?_
  refine bind typeRefOrEmpty fun type l ⟨on,typeStart,typeStop,typeEnd⟩ _ => ?_
  have typed : Spelled tokens [.type type.span] (i + 1) l :=
    skipped.append (.one (.type _ on typeStart ⟨typeStop,typeEnd⟩))
  refine sees (fun _ => ?_) fun _ => ?_
  · refine bind (argList_reads sound) fun args m read _ => nextStart ?_
    refine sees (fun _ => ?_) fun _ => ?_
    · refine bind (skipNested _ _) fun _ j further _ => spanFrom (spanFrom (pure ?_))
      refine ⟨?_,type,args,[],none,_,_,rfl,rfl,fun visible => ?_⟩
      · have := typed.le
        have := (read []).le
        omega
      · have whole := (typed.append (read visible)).append (.one (.anonymous (.upTo (2 * m + 1) (2 * j)) further))
        simpa [Expr.walkAll,Expr.walkOption] using whole
    · refine spanFrom (pure ⟨?_,type,args,[],none,none,_,rfl,rfl,fun visible => ?_⟩)
      · have := typed.le
        have := (read []).le
        omega
      · simpa [Expr.walkAll,Expr.walkOption] using typed.append (read visible)
  · refine bind (arrayDims_reads sound) fun dims m read _ => ?_
    have finish (initializer : Option Expr) (j : Nat) (last : ReadAll tokens initializer.toList m j) :
        Reads tokens (do
          return .create outer type [] (dims.filterMap id) initializer none (← Parser.spanFrom start))
          j (Created tokens outer start (i + 1)) := by
      refine spanFrom (pure ⟨?_,type,[],_,initializer,none,_,rfl,rfl,fun visible => ?_⟩)
      · have := typed.le
        have := (read []).le
        have := (last []).le
        omega
      · have whole := (typed.append (read visible)).append (last visible)
        cases initializer <;> simpa [Expr.walkAll,Expr.walkOption] using whole
    exact sees (fun opening => bind (arrayInit_reads sound opening) fun e j last _ =>
      finish (some e) j (ReadAll.cons e [] m j j last (.nil j))) fun _ => finish none m (.nil m)

theorem parenthesized_reads (opening : Seen tokens i .parenOpen) :
    Reads tokens (parenthesized inner (2 * i + 1)) (i + 1) (Read tokens i) := by
  refine bind (sound.expr _) fun content k read _ => ?_
  refine bind (expectSymbol (by decide)) fun _ m closed _ => get (ite (fun _ => ?_) fun _ => ?_)
  · refine bind (sound.unary m) fun operand j last _ => pure (.of_span rfl last.stop fun _ _ => ?_)
    have := read.le
    have := closed.le
    have := last.le
    exact .one (.missing _ (by omega))
  · refine spanFrom (pure (.of_span rfl (by omega) fun visible access => ?_))
    have whole := Spelled.quiet (opening.quiet (by decide)) ((read.walked visible access).append closed)
    simpa [Expr.walk] using whole

theorem primary_reads : Reads tokens (primary inner) i (Read tokens i) := by
  refine get ?_
  split
  · exact pure (Expr.read_nothing i)
  · rename_i token found
    rw [Cursor.on_next?] at found
    have here := (List.getElem?_eq_some_iff.mp found).1
    have symbol (other : token.kind ≠ .ident) : Spelled tokens [] i (i + 1) :=
      .quiet (.symbol token found other) (.nil _)
    refine ite (fun _ => pure (Expr.read_nothing i)) fun _ => skip 1 here ?_
    split
    · rename_i ident
      have word : SeenWord tokens i token.text := ⟨token,found,by simp [Token.isWord,ident]⟩
      refine ite (fun same => ?_) fun _ => pure (Expr.read_word _ word)
      rw [same] at word
      refine (creation_reads sound none (2 * i + 1) word).mono ?_
      rintro _ j ⟨on,type,args,dims,initializer,body,_,rfl,rfl,parts⟩ _
      exact .of_span rfl (by omega) fun visible _ => .mark (.create type.text _ word rfl) (parts visible)
    · rename_i kind
      exact pure (.of_token rfl fun _ _ => symbol (by simp [kind]))
    · rename_i kind
      exact pure (.of_token rfl fun _ _ => symbol (by simp [kind]))
    · rename_i kind
      exact pure (.of_token rfl fun _ _ => symbol (by simp [kind]))
    · rename_i kind
      exact parenthesized_reads sound ⟨token,found,kind⟩
    · exact pure (.of_token rfl fun _ _ => .one (.missing _ (Nat.le_succ i)))

theorem postfixStep_reads (e : Expr) (read : Read tokens i e k) :
    Reads tokens (postfixStep inner e) k fun next j => Read tokens i (next.getD e) j := by
  have start := read.start
  have dot (seen : Seen tokens k .dot) (visible : Locals) :
      Spelled tokens (e.walk visible .read) i (k + 1) :=
    (read.walked visible .read).andQuiet (seen.quiet (by decide))
  have counted (op : UnaryOp) {kind : Kind} (symbol : kind ≠ .ident) (seen : Seen tokens k kind) :
      Read tokens i (.unary op false e (.upTo (2 * i + 1) (2 * (k + 1)))) (k + 1) :=
    .of_span rfl (by omega) fun visible _ => (read.walked visible _).andQuiet (seen.quiet symbol)
  have behind : Reads tokens (do
      if ← Parser.eat .bracketOpen then
        let position ← inner.expr
        discard (Parser.expect .bracketClose)
        return some (.index e position (← Parser.spanFrom (2 * i + 1)))
      else if ← Parser.eat .increment then
        return some (.unary .increment false e (← Parser.spanFrom (2 * i + 1)))
      else if ← Parser.eat .decrement then
        return some (.unary .decrement false e (← Parser.spanFrom (2 * i + 1)))
      else return none) k fun next j => Read tokens i (next.getD e) j := by
    refine eat (fun opening => ?_) fun _ => eat (fun seen => ?_) fun _ => eat (fun seen => ?_) fun _ => ?_
    · refine bind (sound.expr _) fun position l inside _ => ?_
      refine bind (expectSymbol (by decide)) fun _ j closed _ => spanFrom (pure ?_)
      refine .of_span rfl (by omega) fun visible _ => ?_
      have front := (read.walked visible .read).andQuiet (opening.quiet (by decide))
      simpa [Expr.walk] using (front.append (inside.walked visible .read)).append closed
    · exact spanFrom (pure (counted .increment (by decide) seen))
    · exact spanFrom (pure (counted .decrement (by decide) seen))
    · exact pure read
  unfold postfixStep
  rw [start]
  refine eat (fun seen => eatWord (fun word => ?_) fun _ => ?_) fun _ => sees (fun opened => ?_) fun _ => ?_
  · refine bind (creation_reads sound (some e) (2 * i + 1) word) ?_
    rintro _ j ⟨on,type,args,dims,initializer,body,_,rfl,rfl,parts⟩ _
    refine pure (.of_span rfl (by omega) fun visible _ => ?_)
    exact ((dot seen visible).andQuiet (.word "new" word (by decide))).append (parts visible)
  · refine bind (skipArguments (.inl seen)) fun _ l ⟨skipped,stop⟩ _ => ?_
    refine bind expect fun member j known _ => spanFrom (pure (.of_span rfl (by omega) fun visible _ => ?_))
    have front : Spelled tokens (e.walk visible .read) i l := by
      simpa using (dot seen visible).append skipped
    rcases known with ⟨_,_,_,_,rfl⟩ | ⟨_,_,rfl⟩
    · exact front.andQuiet (.member k seen stop)
    · exact front
  · refine ite (fun isCallee => ?_) fun _ => behind
    refine bind (argList_reads sound) fun args j all _ => spanFrom (pure ?_)
    exact Expr.read_call read (by simpa using isCallee) opened all
  · exact ite (fun isCallee => by simp at isCallee) fun _ => behind

theorem postfixed_reads : Reads tokens (postfixed inner) i (Read tokens i) := by
  refine bind (primary_reads sound) fun e k read _ => ?_
  exact repeated _ e read fun e l first => postfixStep_reads sound e first

theorem unary_reads : Reads tokens (unary inner) i (Read tokens i) := by
  refine get ?_
  split
  · rename_i op found
    obtain ⟨here,quiet⟩ := operator_quiet rfl found
    refine skip 1 here (bind (sound.unary _) fun operand j read _ => pure ?_)
    exact .of_span rfl read.stop fun visible _ => .quiet quiet (read.walked visible _)
  · exact postfixed_reads sound

theorem binaryStep_reads (least : Nat) (left : Expr) (read : Read tokens i left k) :
    Reads tokens (binaryStep inner least left) k fun next j => Read tokens i (next.getD left) j := by
  have start := read.start
  unfold binaryStep
  rw [start]
  refine get (ite (fun tested => ?_) fun _ => ?_)
  · simp only [Bool.and_eq_true,Cursor.on_seesWord_iff] at tested
    refine skip 1 tested.1.ident.lt (bind skipVariableModifiers fun _ l passed _ => ?_)
    refine bind typeRefOrEmpty fun type m ⟨on,typeStart,typeStop,typeEnd⟩ _ => get ?_
    have finish (j : Nat) (further : m ≤ j) : Reads tokens (do
        return some (.instanceOf left type (← Parser.spanFrom (2 * i + 1)))) j
        fun next j => Read tokens i (next.getD left) j := by
      refine spanFrom (pure (.of_span rfl (by omega) fun visible _ => ?_))
      have front := (read.walked visible .read).andQuiet (.word "instanceof" tested.1 (by decide))
      have typed := (front.append passed).append (.one (.type _ on typeStart ⟨typeStop,typeEnd⟩))
      have before := read.le
      have behind := passed.le
      have bound : Marks tokens (.binding ⟨type.span.stop,(Span.upTo (2 * i + 1) (2 * j)).stop⟩) m j :=
        .binding _ further typeEnd (by simp only [Span.upTo]; omega)
      simpa [Expr.walk] using typed.append (.one bound)
    refine ite (fun named => ?_) fun _ => finish m (Nat.le_refl m)
    simp only [Bool.and_eq_true,Cursor.on_sees_iff] at named
    exact skip 1 named.1.lt (finish _ (Nat.le_succ m))
  · split
    · rename_i op precedence found
      obtain ⟨here,quiet⟩ := operator_quiet rfl found
      refine ite (fun _ => pure read) fun _ => skip 1 here ?_
      refine bind (sound.binary _ _) fun right j last _ => pure (.of_span rfl last.stop fun visible _ => ?_)
      exact ((read.walked visible .read).andQuiet quiet).append (last.walked visible .read)
    · exact pure read

theorem binary_reads (least : Nat) : Reads tokens (binary inner least) i (Read tokens i) := by
  refine bind (unary_reads sound) fun e k read _ => ?_
  exact repeated _ e read fun e l first => binaryStep_reads sound least e first

theorem conditional_reads : Reads tokens (conditional inner) i (Read tokens i) := by
  refine bind (binary_reads sound 1) fun condition k read _ => ?_
  refine eat (fun seen => ?_) fun _ => pure read
  refine bind (sound.expr _) fun yes l first _ => bind (expectSymbol (by decide)) fun _ m colon _ => ?_
  refine bind (sound.conditional _) fun no j second _ => pure ?_
  rw [read.start]
  refine .of_span rfl second.stop fun visible _ => ?_
  have front := (read.walked visible .read).andQuiet (seen.quiet (by decide))
  have parted := (front.append (first.walked visible .read)).append colon
  simpa [Expr.walk] using parted.append (second.walked visible .read)

theorem expr_reads : Reads tokens (expr inner) i (Read tokens i) := by
  refine bind (conditional_reads sound) fun left k read _ => get ?_
  split
  · rename_i op found
    obtain ⟨here,quiet⟩ := operator_quiet rfl found
    refine skip 1 here (bind (sound.expr _) fun right j last _ => pure ?_)
    rw [read.start]
    refine .of_span rfl last.stop fun visible _ => ?_
    exact ((read.walked visible _).andQuiet quiet).append (last.walked visible .read)
  · exact pure read

theorem initializer_reads : Reads tokens (initializer inner) i (Read tokens i) :=
  sees (fun opening => arrayInit_reads sound opening) fun _ => expr_reads sound

theorem next_sound : (next inner).Sound tokens where
  expr _ := expr_reads sound
  conditional _ := conditional_reads sound
  binary least _ := binary_reads sound least
  unary _ := unary_reads sound
  initializer _ := initializer_reads sound

omit sound

theorem ground_sound : ground.Sound tokens where
  expr i := nextStart (pure (Expr.read_nothing i))
  conditional i := nextStart (pure (Expr.read_nothing i))
  binary _ i := nextStart (pure (Expr.read_nothing i))
  unary i := nextStart (pure (Expr.read_nothing i))
  initializer i := nextStart (pure (Expr.read_nothing i))

/-- Also readers of too few levels read in this way. -/
theorem readers_sound (depth : Nat) : (readers depth).Sound tokens := by
  induction depth with
  | zero => exact ground_sound
  | succ depth ih => exact next_sound ih

end ExprLevel

namespace Parser

theorem expr_reads : Reads tokens Parser.expr i (Expr.Read tokens i) :=
  Reads.bounded fun turns _ => (ExprLevel.readers_sound turns).expr i

theorem exprs_reads (stops : List Kind) :
    Reads tokens (Parser.separated stops Parser.expr) i (Expr.ReadAll tokens · i ·) :=
  Reads.separated (Expr.ReadAll tokens) Expr.ReadAll.nil (fun e list k m j => Expr.ReadAll.cons e list k m j)
    Expr.ReadAll.comma fun _ => expr_reads

theorem initializer_reads : Reads tokens Parser.initializer i (Expr.Read tokens i) :=
  Reads.bounded fun turns _ => (ExprLevel.readers_sound turns).initializer i

end Parser
end Transplant.Java
