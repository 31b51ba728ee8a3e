import Transplant.Proofs.Java.Spans
import Transplant.Proofs.Java.Stmt

/-! Spans that fit: whatever is read, also where tokens were missing or passed over, each span stored
in it runs from one boundary of the tokens up to another one. -/
namespace Transplant.Java

open Token (Kind)

/-- The span is one between boundaries of so many tokens. -/
structure Fits (count : Nat) (span : Span) : Prop where
  order : span.start ≤ span.stop
  known : span.stop ≤ 2 * count + 1

def AllFit (count : Nat) (spans : List Span) : Prop := ∀ span ∈ spans, Fits count span

section

variable {count : Nat} {span : Span} {spans more : List Span}

theorem Fits.start_known (fits : Fits count span) : span.start ≤ 2 * count + 1 :=
  Nat.le_trans fits.order fits.known

theorem Fits.upTo {start stop : Nat} (first : start ≤ 2 * count + 1) (last : stop ≤ 2 * count + 1) :
    Fits count (.upTo start stop) := ⟨Span.upTo_ordered start stop,Nat.max_le.mpr ⟨first,last⟩⟩

theorem Fits.empty {place : Nat} (known : place ≤ 2 * count + 1) : Fits count (.empty place) :=
  ⟨Nat.le_refl place,known⟩

theorem AllFit.nil : AllFit count [] := nofun

theorem AllFit.cons (first : Fits count span) (rest : AllFit count spans) : AllFit count (span :: spans) :=
  List.forall_mem_cons.mpr ⟨first,rest⟩

theorem AllFit.append (first : AllFit count spans) (rest : AllFit count more) : AllFit count (spans ++ more) :=
  List.forall_mem_append.mpr ⟨first,rest⟩

theorem AllFit.one (fits : Fits count span) : AllFit count [span] := .cons fits .nil

end

variable {tokens : List Token} {i j k : Nat}

def Expr.Fit (tokens : List Token) (e : Expr) : Prop := AllFit tokens.length e.spans

def Expr.FitAll (tokens : List Token) (list : List Expr) : Prop := AllFit tokens.length (Expr.spansAll list)

namespace Expr

theorem Fit.span {e : Expr} (fit : e.Fit tokens) : Fits tokens.length e.span := fit _ e.span_mem_spans

theorem spansAll_append (first second : List Expr) :
    spansAll (first ++ second) = spansAll first ++ spansAll second := by
  induction first with
  | nil => rfl
  | cons e rest ih => simp only [List.cons_append,spansAll,ih,List.append_assoc]

theorem FitAll.append_one {list : List Expr} {e : Expr} (first : FitAll tokens list) (last : e.Fit tokens) :
    FitAll tokens (list ++ [e]) := by
  unfold FitAll
  rw [spansAll_append]
  exact first.append (last.append .nil)

theorem fit_missing {span : Span} (fits : Fits tokens.length span) : Fit tokens (.missing span) := .one fits

theorem fit_word (word : String) {span : Span} (fits : Fits tokens.length span) :
    Fit tokens (ExprLevel.wordExpr word span) := by
  unfold ExprLevel.wordExpr
  split
  · exact .one fits
  · split
    · exact .one fits
    · split
      · exact .one fits
      · split <;> exact .one fits

end Expr

namespace Reads

variable {α : Type} {read : Parser α} {post other : α → Nat → Prop}

/-- A reader gives one result, of which all holds that was shown of it. -/
theorem and (first : Reads tokens read i post) (second : Reads tokens read i other) :
    Reads tokens read i fun a j => post a j ∧ other a j := by
  intro inside
  obtain ⟨a,j,ran,bound,given⟩ := first inside
  obtain ⟨b,k,again,_,also⟩ := second inside
  rw [ran] at again
  cases again
  exact ⟨a,j,ran,bound,given,also⟩

theorem expect_fits {kind : Kind} : Reads tokens (Parser.expect kind) i fun ident _ =>
    Fits tokens.length ident.span := by
  refine assume fun inside => expect.mono fun _ j known bound => ?_
  rcases known with ⟨_,_,_,rfl,rfl⟩ | ⟨_,rfl,_⟩
  · exact ⟨Nat.le_succ _,show 2 * i + 2 ≤ _ by omega⟩
  · exact ⟨Nat.le_refl _,show 2 * i ≤ _ by omega⟩

theorem typeRef_fits : Reads tokens Parser.typeRef i fun found _ =>
    ∀ type, found = some type → Fits tokens.length type.span := by
  refine typeRef.mono fun _ j given bound => ?_
  rcases given with ⟨rfl,_⟩ | ⟨type,rfl,_,order,span⟩
  · nofun
  · intro _ same
    rw [← Option.some.inj same,span]
    exact ⟨show 2 * i + 1 ≤ 2 * j by omega,show 2 * j ≤ _ by omega⟩

theorem typeRefOrEmpty_fits : Reads tokens Parser.typeRefOrEmpty i fun type _ =>
    Fits tokens.length type.span := by
  refine assume fun inside => bind typeRef_fits fun found k given _ => ?_
  cases found with
  | some type => exact pure (given type rfl)
  | none => exact assume fun inside => nextStart (pure (.empty (by omega)))

end Reads

/-- What the readers give fits. -/
structure ExprReaders.Fit (tokens : List Token) (inner : ExprReaders) : Prop where
  expr : ∀ i, Reads tokens inner.expr i fun e _ => e.Fit tokens
  conditional : ∀ i, Reads tokens inner.conditional i fun e _ => e.Fit tokens
  binary : ∀ least i, Reads tokens (inner.binary least) i fun e _ => e.Fit tokens
  unary : ∀ i, Reads tokens inner.unary i fun e _ => e.Fit tokens
  initializer : ∀ i, Reads tokens inner.initializer i fun e _ => e.Fit tokens

namespace ExprLevel

open Reads
open Java.Expr (Fit FitAll)

theorem unread_fits (close : Kind) : Reads tokens (unread close) i fun e _ => e.Fit tokens := by
  refine assume fun inside => nextStart (bind (skipOutside _ _) fun _ j _ bound => spanFrom (pure ?_))
  exact Expr.fit_missing (.upTo (by omega) (by omega))

theorem separated_fits {item : Parser Expr} (stops : List Kind)
    (each : ∀ k, Reads tokens item k fun e _ => e.Fit tokens) :
    Reads tokens (Parser.separated stops item) i fun list _ => FitAll tokens list :=
  separated (fun list _ _ => FitAll tokens list) (fun _ => .nil)
    (fun _ _ _ _ _ first rest => first.append rest) (fun _ _ _ _ rest => rest) each

variable {inner : ExprReaders} (fit : inner.Fit tokens)

include fit

theorem argList_fits : Reads tokens (argList inner) i fun args _ => FitAll tokens args := by
  refine bind expectOn.discard fun _ k _ _ => bind (separated_fits _ fit.expr) fun args l read _ => get ?_
  have closed (all : List Expr) (m : Nat) (read : FitAll tokens all) : Reads tokens (do
      discard (Parser.expect .parenClose)
      return all) m fun args _ => FitAll tokens args :=
    bind expectOn.discard fun _ _ _ _ => pure read
  exact ite (fun _ => closed args l read) fun _ =>
    bind (unread_fits _) fun _ m last _ => closed _ m (read.append_one last)

theorem arrayInit_fits : Reads tokens (arrayInit inner) i fun e _ => e.Fit tokens := by
  refine bind expect_fits fun brace k opening _ => ?_
  refine bind (separated_fits _ fit.initializer) fun elements l read _ => ?_
  have closed (all : List Expr) (m : Nat) (read : FitAll tokens all) : Reads tokens (do
      discard (Parser.expect .braceClose)
      return .arrayInit all (← Parser.spanFrom brace.span.start)) m fun (e : Expr) _ => e.Fit tokens := by
    refine bind expectOn.discard fun _ j _ bound => spanFrom (pure ?_)
    exact .cons (.upTo opening.start_known (by omega)) read
  exact sees (fun _ => closed elements l read) fun _ =>
    bind (unread_fits _) fun _ m last _ => closed _ m (read.append_one last)

theorem arrayDims_fits (sound : inner.Sound tokens) : Reads tokens (arrayDims inner) i fun dims _ =>
    FitAll tokens (dims.filterMap id) := by
  refine many (fun dims _ _ => FitAll tokens (dims.filterMap id)) (fun _ => .nil) fun k _ => ?_
  refine eat (fun _ => ?_) fun _ => pure ⟨Nat.le_refl k,fun _ => rfl,nofun⟩
  have closed (length : Option Expr) (l : Nat) (on : k ≤ l) (read : ∀ e, length = some e → e.Fit tokens) :
      Reads tokens (do discard (Parser.expect .bracketClose); return some length) l fun next m =>
        k ≤ m ∧ (next = none → m = k) ∧ ∀ dim, next = some dim → ∀ list (j : Nat),
          FitAll tokens (list.filterMap id) → FitAll tokens ((dim :: list).filterMap id) := by
    refine bind expectOn.discard fun _ m ⟨_,further⟩ _ => pure ⟨Nat.le_trans on further,nofun,?_⟩
    intro dim same list _ rest
    cases same
    cases length with
    | none => exact rest
    | some e => exact (read e rfl).append rest
  exact sees (fun _ => closed none _ (Nat.le_succ k) nofun) fun _ =>
    bind ((sound.expr _).and (fit.expr _)) fun e l ⟨place,read⟩ _ =>
      closed (some e) l (Nat.le_of_lt place.le) fun _ same => Option.some.inj same ▸ read

theorem creation_fits (sound : inner.Sound tokens) {outer : Option Expr} {start : Nat}
    (begun : start ≤ 2 * tokens.length + 1) (first : AllFit tokens.length (Expr.spansOption outer)) :
    Reads tokens (creation inner outer start) i fun e _ => e.Fit tokens := by
  refine bind (skipNested _ _) fun _ k _ _ => bind typeRefOrEmpty_fits fun type l typed _ => ?_
  refine sees (fun _ => ?_) fun _ => ?_
  · refine bind (argList_fits fit) fun args m read low => nextStart (sees (fun _ => ?_) fun _ => ?_)
    · refine bind (skipNested _ _) fun _ j _ bound => spanFrom (spanFrom (pure ?_))
      have body : Fits tokens.length (.upTo (2 * m + 1) (2 * j)) := .upTo (by omega) (by omega)
      exact .cons (.upTo begun (by omega)) (.cons typed (first.append (.append read (.one body))))
    · exact spanFrom (pure (.cons (.upTo begun (by omega)) (.cons typed (first.append (.append read .nil)))))
  · refine bind (arrayDims_fits fit sound) fun dims m read _ => ?_
    have finish (initializer : Option Expr) (j : Nat) (last : AllFit tokens.length (Expr.spansOption initializer)) :
        Reads tokens (do
          return .create outer type [] (dims.filterMap id) initializer none (← Parser.spanFrom start))
          j fun (e : Expr) _ => e.Fit tokens := by
      refine assume fun bound => spanFrom (pure ?_)
      have parts := first.append (.append .nil (.append read (.append last .nil)))
      exact .cons (.upTo begun (by omega)) (.cons typed parts)
    exact sees (fun _ => bind (arrayInit_fits fit) fun e j last _ => finish (some e) j last) fun _ =>
      finish none m .nil

theorem parenthesized_fits {start : Nat} (begun : start ≤ 2 * tokens.length + 1) :
    Reads tokens (parenthesized inner start) i fun e _ => e.Fit tokens := by
  refine bind (fit.expr _) fun content k read _ => bind expectOn.discard fun _ l _ bound => get ?_
  refine ite (fun _ => bind (fit.unary _) fun operand j last _ => pure ?_) fun _ => spanFrom (pure ?_)
  · exact Expr.fit_missing (.upTo begun last.span.known)
  · exact .cons (.upTo begun (by omega)) read

theorem primary_fits (sound : inner.Sound tokens) : Reads tokens (primary inner) i fun e _ => e.Fit tokens := by
  refine assume fun inside => get ?_
  have begun : 2 * i + 1 ≤ 2 * tokens.length + 1 := by omega
  split
  · exact pure (Expr.fit_missing (.empty begun))
  · rename_i token found
    rw [Cursor.on_next?] at found
    have here := (List.getElem?_eq_some_iff.mp found).1
    have fits : Fits tokens.length ⟨2 * i + 1,2 * i + 2⟩ := ⟨Nat.le_succ _,show 2 * i + 2 ≤ _ by omega⟩
    refine ite (fun _ => pure (Expr.fit_missing (.empty begun))) fun _ => skip 1 here ?_
    split
    · exact ite (fun _ => creation_fits fit sound begun .nil) fun _ => pure (Expr.fit_word _ fits)
    · exact pure (.one fits)
    · exact pure (.one fits)
    · exact pure (.one fits)
    · exact parenthesized_fits fit begun
    · exact pure (.one fits)

theorem postfixStep_fits (sound : inner.Sound tokens) (e : Expr) (read : e.Fit tokens) :
    Reads tokens (postfixStep inner e) i fun next _ => (next.getD e).Fit tokens := by
  have begun := read.span.start_known
  have behind : Reads tokens (do
      if ← Parser.eat .bracketOpen then
        let position ← inner.expr
        discard (Parser.expect .bracketClose)
        return some (.index e position (← Parser.spanFrom e.span.start))
      else if ← Parser.eat .increment then
        return some (.unary .increment false e (← Parser.spanFrom e.span.start))
      else if ← Parser.eat .decrement then
        return some (.unary .decrement false e (← Parser.spanFrom e.span.start))
      else return none) i fun next _ => (next.getD e).Fit tokens := by
    refine eat (fun _ => ?_) fun _ => eat (fun seen => ?_) fun _ => eat (fun seen => ?_) fun _ => pure read
    · refine bind (fit.expr _) fun position k inside _ => bind expectOn.discard fun _ j _ bound => ?_
      exact spanFrom (pure (.cons (.upTo begun (by omega)) (read.append inside)))
    · have := seen.lt
      exact spanFrom (pure (.cons (.upTo begun (by omega)) read))
    · have := seen.lt
      exact spanFrom (pure (.cons (.upTo begun (by omega)) read))
  unfold postfixStep
  refine eat (fun _ => eatWord (fun _ => ?_) fun _ => ?_) fun _ => sees (fun _ => ?_) fun _ => ?_
  · exact bind (creation_fits fit sound begun read) fun _ _ made _ => pure made
  · refine bind (skipNested _ _) fun _ k _ _ => bind expect_fits fun member j named bound => spanFrom (pure ?_)
    exact .cons (.upTo begun (by omega)) (.cons named read)
  · refine ite (fun _ => bind (argList_fits fit) fun args j all bound => spanFrom (pure ?_)) fun _ => behind
    exact .cons (.upTo begun (by omega)) (read.append all)
  · exact ite (fun isCallee => by simp at isCallee) fun _ => behind

theorem postfixed_fits (sound : inner.Sound tokens) : Reads tokens (postfixed inner) i fun e _ => e.Fit tokens :=
  bind (primary_fits fit sound) fun e _ read _ =>
    repeated (fun e _ => e.Fit tokens) e read fun e _ first => postfixStep_fits fit sound e first

theorem unary_fits (sound : inner.Sound tokens) : Reads tokens (unary inner) i fun e _ => e.Fit tokens := by
  refine assume fun inside => get ?_
  split
  · rename_i op found
    have here := (operator_quiet rfl found).1
    refine skip 1 here (bind (fit.unary _) fun operand j read _ => pure ?_)
    exact .cons (.upTo (show 2 * i + 1 ≤ _ by omega) read.span.known) read
  · exact postfixed_fits fit sound

theorem binaryStep_fits (least : Nat) (left : Expr) (read : left.Fit tokens) :
    Reads tokens (binaryStep inner least left) i fun next _ => (next.getD left).Fit tokens := by
  have begun := read.span.start_known
  refine get (ite (fun tested => ?_) fun _ => ?_)
  · simp only [Bool.and_eq_true,Cursor.on_seesWord_iff] at tested
    refine skip 1 tested.1.ident.lt (bind skipVariableModifiers fun _ k _ _ => ?_)
    refine bind typeRefOrEmpty_fits fun type l typed _ => get ?_
    have finish (j : Nat) : Reads tokens (do
        return some (.instanceOf left type (← Parser.spanFrom left.span.start))) j
        fun next _ => (next.getD left).Fit tokens :=
      assume fun bound => spanFrom (pure (.cons (.upTo begun (by omega)) (.cons typed read)))
    refine ite (fun named => ?_) fun _ => finish l
    simp only [Bool.and_eq_true,Cursor.on_sees_iff] at named
    exact skip 1 named.1.lt (finish (l + 1))
  · split
    · rename_i op precedence found
      have here := (operator_quiet rfl found).1
      refine ite (fun _ => pure read) fun _ => skip 1 here ?_
      refine bind (fit.binary _ _) fun right j last _ => pure ?_
      exact .cons (.upTo begun last.span.known) (read.append last)
    · exact pure read

theorem binary_fits (sound : inner.Sound tokens) (least : Nat) :
    Reads tokens (binary inner least) i fun e _ => e.Fit tokens :=
  bind (unary_fits fit sound) fun e _ read _ =>
    repeated (fun e _ => e.Fit tokens) e read fun e _ first => binaryStep_fits fit least e first

theorem conditional_fits (sound : inner.Sound tokens) :
    Reads tokens (conditional inner) i fun e _ => e.Fit tokens := by
  refine bind (binary_fits fit sound 1) fun condition k read _ => eat (fun _ => ?_) fun _ => pure read
  refine bind (fit.expr _) fun yes l first _ => bind expectOn.discard fun _ m _ _ => ?_
  refine bind (fit.conditional _) fun no j second _ => pure ?_
  exact .cons (.upTo read.span.start_known second.span.known) (read.append (first.append second))

theorem expr_fits (sound : inner.Sound tokens) : Reads tokens (expr inner) i fun e _ => e.Fit tokens := by
  refine bind (conditional_fits fit sound) fun left k read _ => get ?_
  split
  · rename_i op found
    have here := (operator_quiet rfl found).1
    refine skip 1 here (bind (fit.expr _) fun right j last _ => pure ?_)
    exact .cons (.upTo read.span.start_known last.span.known) (read.append last)
  · exact pure read

theorem initializer_fits (sound : inner.Sound tokens) :
    Reads tokens (initializer inner) i fun e _ => e.Fit tokens :=
  sees (fun _ => arrayInit_fits fit) fun _ => expr_fits fit sound

theorem next_fits (sound : inner.Sound tokens) : (next inner).Fit tokens where
  expr _ := expr_fits fit sound
  conditional _ := conditional_fits fit sound
  binary least _ := binary_fits fit sound least
  unary _ := unary_fits fit sound
  initializer _ := initializer_fits fit sound

omit fit

theorem ground_fits : ground.Fit tokens := by
  have nothing (i : Nat) : Reads tokens (do return Expr.missing (.empty (← Parser.nextStart))) i
      fun e _ => e.Fit tokens :=
    assume fun inside => nextStart (pure (Expr.fit_missing (.empty (by omega))))
  exact ⟨nothing,nothing,fun _ => nothing,nothing,nothing⟩

theorem readers_fit (depth : Nat) : (readers depth).Fit tokens := by
  induction depth with
  | zero => exact ground_fits
  | succ depth ih => exact next_fits ih (readers_sound depth)

end ExprLevel

namespace Parser

theorem expr_fits : Reads tokens Parser.expr i fun e _ => e.Fit tokens :=
  Reads.bounded fun turns _ => (ExprLevel.readers_fit turns).expr i

theorem initializer_fits : Reads tokens Parser.initializer i fun e _ => e.Fit tokens :=
  Reads.bounded fun turns _ => (ExprLevel.readers_fit turns).initializer i

end Parser
end Transplant.Java
