import Transplant.Proofs.Java.Carries
import Transplant.Proofs.Java.Total

/-! Trees that are read behind other tokens. Every reader carries over, from the names and types up to
whole files. -/
namespace Transplant.Java

open Token (Kind)

/-- The type stands somewhere in the tokens. -/
def TypeRef.Stood (tokens : List Token) (type : TypeRef) : Prop := ∃ i j, type.Stands tokens i j

namespace Carries

section

variable {known : TypeRef → Prop} {tokens : List Token} {count i : Nat}

theorem skipNested (opening closing : Kind) :
    Carries known tokens count (Parser.skipNested opening closing) (Parser.skipNested opening closing) i :=
  eat (fun _ => skipBy (nestedLength opening closing 1)) (pure rfl (.silent rfl))

theorem skipOutside (stops : List Kind) (brackets : List (Kind × Kind)) :
    Carries known tokens count (Parser.skipOutside stops brackets) (Parser.skipOutside stops brackets) i :=
  skipBy (outsideLength stops brackets Option.none)

theorem skipWhile (keep : Kind → Bool) :
    Carries known tokens count (Parser.skipWhile keep) (Parser.skipWhile keep) i :=
  skipBy fun rest => (rest.takeWhile fun token => keep token.kind).length

theorem skipStatement : Carries known tokens count Parser.skipStatement Parser.skipStatement i := skipOutside _ _

/-- Words keep no places. -/
theorem words (list : List String) : Tree.mapSpans (moved count) list = list := List.map_id list

theorem standing_words (list : List String) : Standing known list := by simp [Standing,Tree.typeRefs]

theorem qualifiedName : Carries known tokens count Parser.qualifiedName Parser.qualifiedName i := by
  refine bind expect fun first j _ => bind (many fun k => get ?_) fun parts l _ => pure ?_ (standing_words _)
  · simp only [Cursor.later,Cursor.on]
    split
    · exact ite Iff.rfl (fun _ => skip 2 fun _ => pure rfl (.silent rfl)) fun _ => pure rfl (.silent rfl)
    · exact pure rfl (.silent rfl)
  · rw [words,words]
    rfl

theorem skipAnnotation : Carries known tokens count Parser.skipAnnotation Parser.skipAnnotation i :=
  skip 1 fun _ => sees (bind qualifiedName.discard fun _ _ _ => skipNested _ _) (skipNested _ _)

theorem skipVariableModifiers :
    Carries known tokens count Parser.skipVariableModifiers Parser.skipVariableModifiers i := by
  refine repeated (.silent rfl) fun _ k _ => sees ?_ (eatWord (fun _ => pure rfl (.silent rfl)) (pure rfl (.silent rfl)))
  exact bind skipAnnotation fun _ _ _ => pure rfl (.silent rfl)

theorem seesAnnotationType :
    Carries known tokens count Parser.seesAnnotationType Parser.seesAnnotationType i := by
  refine get ?_
  simp only [Cursor.later,Cursor.on]
  split <;> exact pure rfl (.silent rfl)

theorem modifier (flags : Modifiers) :
    Carries known tokens count (Parser.modifier flags) (Parser.modifier flags) i := by
  refine get ?_
  simp only [Cursor.later,Cursor.on]
  split
  · exact pure rfl (.silent rfl)
  · refine ite Iff.rfl (fun _ => bind seesAnnotationType fun _ _ _ => ?_) fun _ => ite Iff.rfl (fun _ => ?_) fun _ => ?_
    · refine ite Iff.rfl (fun _ => pure rfl (.silent rfl)) fun _ => ?_
      exact bind skipAnnotation fun _ _ _ => pure rfl (.silent rfl)
    · exact ite Iff.rfl (fun _ => skip 3 fun _ => pure rfl (.silent rfl)) fun _ => pure rfl (.silent rfl)
    · exact ite Iff.rfl (fun _ => pure rfl (.silent rfl)) fun _ => skip 1 fun _ => pure rfl (.silent rfl)

theorem modifiers : Carries known tokens count Parser.modifiers Parser.modifiers i :=
  repeated (.silent rfl) fun flags _ _ => modifier flags

theorem typeArguments : Carries known tokens count Parser.typeArguments Parser.typeArguments i :=
  sees (get (skip _ fun _ => pure rfl (.silent rfl))) (pure rfl (.silent rfl))

theorem typeSegment (text : String) :
    Carries known tokens count (Parser.typeSegment text) (Parser.typeSegment text) i := by
  refine get ?_
  simp only [Cursor.later,Cursor.on]
  split
  · refine ite Iff.rfl (fun _ => skip 2 fun _ => ?_) fun _ => pure rfl (.silent rfl)
    exact bind typeArguments fun _ _ _ => pure rfl (.silent rfl)
  · exact pure rfl (.silent rfl)

theorem dimensions : Carries known tokens count Parser.dimensions Parser.dimensions i := by
  refine repeated (.silent rfl) fun depth k _ => get ?_
  simp only [Cursor.later,Cursor.on]
  split
  · exact ite Iff.rfl (fun _ => skip 2 fun _ => pure rfl (.silent rfl)) fun _ => pure rfl (.silent rfl)
  · exact pure rfl (.silent rfl)

/-- The type is known that is read. -/
theorem typeRef (given : Reads tokens Parser.typeRef i fun found _ => ∀ type ∈ found, known type) :
    Carries known tokens count Parser.typeRef Parser.typeRef i := by
  have anyhow : Carries (fun _ => True) tokens count Parser.typeRef Parser.typeRef i := by
    refine sees (nextStart (bind expect fun first j _ => bind typeArguments fun arguments k _ => ?_))
      (pure rfl (.silent rfl))
    refine bind (repeated (.silent rfl) fun text _ _ => typeSegment text) fun text l _ =>
      bind dimensions fun depth m _ => ?_
    exact spanFrom fun span => pure rfl fun _ _ => trivial
  refine (Reads.and given anyhow).mono fun found j ⟨given,_,moved⟩ _ => ⟨?_,moved⟩
  cases found with
  | none => exact .none
  | some type => exact Standing.some fun _ listed => List.mem_singleton.mp listed ▸ given type rfl

/-- The type is known that is read with the dots behind it. -/
theorem varargs {type : TypeRef} (given : Reads tokens (Parser.varargs type) i fun type _ => known type) :
    Carries known tokens count (Parser.varargs type) (Parser.varargs (type.mapSpans (moved count))) i := by
  have anyhow : Carries (fun _ => True) tokens count (Parser.varargs type)
      (Parser.varargs (type.mapSpans (moved count))) i := by
    refine get ?_
    simp only [Cursor.later,Cursor.on]
    split
    · exact ite Iff.rfl (fun _ => skip 3 fun _ => spanFrom fun _ => pure rfl fun _ _ => trivial) fun _ =>
        pure rfl fun _ _ => trivial
    · exact pure rfl fun _ _ => trivial
  refine (Reads.and given anyhow).mono fun type j both _ => ⟨fun _ listed => ?_,both.2.2⟩
  exact List.mem_singleton.mp listed ▸ both.1

end

variable {tokens : List Token} {count i : Nat} (plain : ∀ token ∈ tokens, token.Plain)

include plain

theorem typeStood : Carries (TypeRef.Stood tokens) tokens count Parser.typeRef Parser.typeRef i := by
  refine typeRef ((typeRef_shows plain).mono fun found j given _ type read => ?_)
  obtain ⟨some,span,shows⟩ := given type read
  exact ⟨i,j,.of_shows some span shows⟩

theorem typeRefOrEmpty :
    Carries (TypeRef.Stood tokens) tokens count Parser.typeRefOrEmpty Parser.typeRefOrEmpty i := by
  refine bind (typeStood plain) fun found j standing => ?_
  cases found with
  | some type => exact pure rfl standing.of_some
  | none =>
    refine inside fun inside => nextStart (pure rfl fun type listed => ?_)
    rw [List.mem_singleton.mp listed]
    exact ⟨j,j,.missing inside⟩

theorem param : Carries (TypeRef.Stood tokens) tokens count Parser.param Parser.param i := by
  refine bind skipVariableModifiers fun _ j _ => follow (typeRef_shows plain) (typeStood plain) ?_
  intro found k given standing _
  cases found with
  | none => exact pure rfl .none
  | some type =>
    obtain ⟨some,span,shows⟩ := given type rfl
    have dotted : Reads tokens (Parser.varargs type) k fun type _ => type.Stood tokens :=
      (varargs_shows plain type some span shows).mono fun _ l ⟨some,span,shows⟩ _ => ⟨j,l,.of_shows some span shows⟩
    refine bind (varargs dotted) fun type l standing => bind expect fun name m _ => bind dimensions.discard fun _ _ _ => ?_
    exact pure (by simp [Tree.mapSpans,Param.mapSpans,moved_upTo]; rfl) (Standing.some standing)

theorem paramList : Carries (TypeRef.Stood tokens) tokens count Parser.paramList Parser.paramList i := by
  refine bind expect.discard fun _ j _ => bind (gathered fun k => ?_) fun params l standing => ?_
  · exact bind (param plain) fun found m standing => bind eaten.discard fun _ _ _ => pure rfl standing
  · exact bind expect.discard fun _ _ _ => pure rfl standing

end Carries

/-- All readers of expressions carry over. -/
structure ExprReaders.Carries (tokens : List Token) (count : Nat) (inner : ExprReaders) : Prop where
  expr : ∀ i, Java.Carries (TypeRef.Stood tokens) tokens count inner.expr inner.expr i
  conditional : ∀ i, Java.Carries (TypeRef.Stood tokens) tokens count inner.conditional inner.conditional i
  binary : ∀ least i, Java.Carries (TypeRef.Stood tokens) tokens count (inner.binary least) (inner.binary least) i
  unary : ∀ i, Java.Carries (TypeRef.Stood tokens) tokens count inner.unary inner.unary i
  initializer : ∀ i, Java.Carries (TypeRef.Stood tokens) tokens count inner.initializer inner.initializer i

attribute [local simp] Tree.mapSpans Tree.typeRefs Standing Expr.mapSpans Expr.typeRefs Expr.mapSpansAll_eq_map
  Expr.mapSpansOption_eq Expr.typeRefsAll_eq Expr.typeRefsOption_eq moved_upTo moved_start moved_stop
  Expr.mapSpans_span or_imp forall_and

theorem Expr.isDotted_mapSpans (f : Span → Span) (e : Expr) : (e.mapSpans f).isDotted = e.isDotted := by
  fun_induction Expr.isDotted e with
  | case1 => rfl
  | case2 receiver name span ih => exact ih
  | case3 e unnamed unaccessed => cases e <;> simp_all [Expr.isDotted]

namespace ExprLevel

variable {tokens : List Token} {count i : Nat}

theorem unread_carries (close : Kind) :
    Carries (TypeRef.Stood tokens) tokens count (unread close) (unread close) i :=
  .nextStart (.bind (.skipOutside _ _) fun _ _ _ => .spanFrom fun _ => .pure rfl (.silent rfl))

theorem lengths (dims : List (Option Expr)) :
    (Tree.mapSpans (moved count) dims).filterMap id = Tree.mapSpans (moved count) (dims.filterMap id) := by
  simp only [Tree.mapSpans,List.filterMap_map,List.map_filterMap]
  rfl

theorem of_lengths {dims : List (Option Expr)} (read : Standing (TypeRef.Stood tokens) dims) :
    Standing (TypeRef.Stood tokens) (dims.filterMap id) := by
  simp only [Standing,Tree.typeRefs,List.mem_flatMap,List.mem_filterMap,id] at read ⊢
  rintro type ⟨e,⟨_,listed,rfl⟩,own⟩
  exact read type ⟨_,listed,e,by simp,own⟩

theorem castFollows_mapSpans (content : Expr) (next : Option Token) :
    castFollows (content.mapSpans (moved count)) next = castFollows content next := by
  unfold castFollows
  cases next with
  | none => rfl
  | some token =>
    rw [Expr.isDotted_mapSpans]
    cases content <;> rfl

theorem wordExpr_mapSpans (f : Span → Span) (word : String) (span : Span) :
    wordExpr word (f span) = (wordExpr word span).mapSpans f := by
  unfold wordExpr
  repeat' split
  all_goals rfl

theorem wordExpr_standing (word : String) (span : Span) :
    Standing (TypeRef.Stood tokens) (wordExpr word span) := by
  unfold wordExpr
  repeat' split
  all_goals nofun

variable {inner : ExprReaders} (carries : inner.Carries tokens count)

include carries

theorem argList_carries :
    Carries (TypeRef.Stood tokens) tokens count (argList inner) (argList inner) i := by
  refine .bind Carries.expect.discard fun _ j _ => .bind (.separated carries.expr) fun args k read => .get ?_
  refine .ite Iff.rfl (fun _ => .bind (.pure rfl read) fun args l read => ?_) fun _ => ?_
  · exact .bind Carries.expect.discard fun _ _ _ => .pure rfl read
  · refine .bind (unread_carries _) fun last _ ended =>
      .bind (.pure (by simp) (read.append (ended.cons .nil))) fun args l read => ?_
    exact .bind Carries.expect.discard fun _ _ _ => .pure rfl read

theorem arrayInit_carries :
    Carries (TypeRef.Stood tokens) tokens count (arrayInit inner) (arrayInit inner) i := by
  refine .bind .expect fun brace j _ => .bind (.separated carries.initializer) fun elements k read => ?_
  refine .sees (.bind (.pure rfl read) fun elements l read => ?_) ?_
  · exact .bind Carries.expect.discard fun _ _ _ => .spanFrom fun _ => .pure (by simp) (by simpa using read)
  · refine .bind (unread_carries _) fun last _ ended =>
      .bind (.pure (by simp) (read.append (ended.cons .nil))) fun args l read =>
        .bind Carries.expect.discard fun _ _ _ => ?_
    exact .spanFrom fun _ => .pure (by simp) (by simpa using read)

theorem arrayDims_carries :
    Carries (TypeRef.Stood tokens) tokens count (arrayDims inner) (arrayDims inner) i := by
  refine .many fun k => .eat (fun _ => .sees (.bind (.pure rfl .none) fun length _ read => ?_) ?_) (.pure rfl .none)
  · exact .bind Carries.expect.discard fun _ _ _ => .pure rfl (.some read)
  · refine .bind (carries.expr _) fun e _ read => .bind (.pure rfl (.some read)) fun length _ read => ?_
    exact .bind Carries.expect.discard fun _ _ _ => .pure rfl (.some read)

theorem creation_carries (plain : ∀ token ∈ tokens, token.Plain) {outer : Option Expr} {start : Nat}
    (first : Standing (TypeRef.Stood tokens) outer) :
    Carries (TypeRef.Stood tokens) tokens count (creation inner outer start)
      (creation inner (Tree.mapSpans (moved count) outer) (start + 2 * count)) i := by
  refine .bind (.skipNested _ _) fun _ j _ => .bind (.typeRefOrEmpty plain) fun type k typed => .sees ?_ ?_
  · refine .bind (argList_carries carries) fun args l read => .nextStart (.sees ?_ ?_)
    · refine .bind (.skipNested _ _) fun _ j _ => .spanFrom fun body => .spanFrom fun span => ?_
      exact .pure (by simp) (by simpa using And.intro typed (And.intro first read))
    · exact .spanFrom fun _ => .pure (by simp) (by simpa using And.intro typed (And.intro first read))
  · refine .bind (arrayDims_carries carries) fun dims l read => .sees ?_ ?_
    · refine .bind (arrayInit_carries carries) fun e m last => .bind (.pure rfl (.some last)) fun value _ last => ?_
      exact .spanFrom fun _ => .pure (by rw [lengths]; simp)
        (by simpa using And.intro typed (And.intro first (And.intro (of_lengths read) last)))
    · refine .bind (.pure rfl .none) fun value _ last => .spanFrom fun _ => .pure (by rw [lengths]; simp) ?_
      simpa using And.intro typed (And.intro first (And.intro (of_lengths read) last))

theorem parenthesized_carries {start : Nat} :
    Carries (TypeRef.Stood tokens) tokens count (parenthesized inner start)
      (parenthesized inner (start + 2 * count)) i := by
  refine .bind (carries.expr _) fun content j read => .bind Carries.expect.discard fun _ k _ => .get ?_
  refine .ite ?_ (fun _ => .bind (carries.unary _) fun operand _ last => .pure (by simp) (.silent rfl)) fun _ => ?_
  · exact iff_of_eq (congrArg (· = true) (castFollows_mapSpans content _).symm)
  · exact .spanFrom fun _ => .pure rfl read

theorem primary_carries (plain : ∀ token ∈ tokens, token.Plain) :
    Carries (TypeRef.Stood tokens) tokens count (primary inner) (primary inner) i := by
  refine .get ?_
  simp only [Cursor.later_next?,Cursor.later_nextStart,Cursor.later_nextSpan]
  split
  · exact .pure rfl (.silent rfl)
  · refine .ite Iff.rfl (fun _ => .pure rfl (.silent rfl)) fun _ => .skip 1 fun _ => ?_
    split
    · refine .ite Iff.rfl (fun _ => creation_carries carries plain .none) fun _ => ?_
      exact .pure (wordExpr_mapSpans _ _ _) (wordExpr_standing _ _)
    · exact .pure rfl (.silent rfl)
    · exact .pure rfl (.silent rfl)
    · exact .pure rfl (.silent rfl)
    · exact parenthesized_carries carries
    · exact .pure rfl (.silent rfl)

theorem postfixStep_carries (plain : ∀ token ∈ tokens, token.Plain) {e : Expr} (first : Standing (TypeRef.Stood tokens) e) :
    Carries (TypeRef.Stood tokens) tokens count (postfixStep inner e) (postfixStep inner (e.mapSpans (moved count))) i := by
  have callee : isCallee (e.mapSpans (moved count)) = isCallee e := by cases e <;> rfl
  unfold postfixStep
  simp only [callee,Expr.mapSpans_span,moved_start]
  refine .eat (fun _ => .eatWord (fun _ => ?new) ?member)
    (.sees (.ite Iff.rfl (fun _ => ?called) fun _ => ?_) (.ite Iff.rfl (fun _ => ?called') fun _ => ?_))
  case new => exact .bind (creation_carries carries plain (.some first)) fun _ _ made => .pure rfl made.some
  case member =>
    refine .bind (.skipNested _ _) fun _ _ _ => .bind .expect fun name _ _ => .spanFrom fun _ => ?_
    exact .pure rfl (.some first)
  case called | called' =>
    refine .bind (argList_carries carries) fun args _ read => .spanFrom fun _ => .pure (by simp) ?_
    simpa using And.intro first read
  -- No call in both cases that are left.
  all_goals
    refine .eat (fun _ => ?_) (.eat (fun _ => ?_) (.eat (fun _ => ?_) (.pure rfl .none)))
    · refine .bind (carries.expr _) fun position _ read => .bind Carries.expect.discard fun _ _ _ => ?_
      exact .spanFrom fun _ => .pure rfl (by simpa using And.intro first read)
    · exact .spanFrom fun _ => .pure rfl (.some first)
    · exact .spanFrom fun _ => .pure rfl (.some first)

theorem postfixed_carries (plain : ∀ token ∈ tokens, token.Plain) :
    Carries (TypeRef.Stood tokens) tokens count (postfixed inner) (postfixed inner) i :=
  .bind (primary_carries carries plain) fun _ _ first =>
    .repeated first fun _ _ given => postfixStep_carries carries plain given

theorem unary_carries (plain : ∀ token ∈ tokens, token.Plain) :
    Carries (TypeRef.Stood tokens) tokens count (unary inner) (unary inner) i := by
  refine .get ?_
  simp only [Cursor.later_next?,Cursor.later_nextStart]
  split
  · exact .skip 1 fun _ => .bind (carries.unary _) fun operand _ read => .pure (by simp) read
  · exact postfixed_carries carries plain

theorem binaryStep_carries (plain : ∀ token ∈ tokens, token.Plain) (least : Nat) {left : Expr}
    (first : Standing (TypeRef.Stood tokens) left) :
    Carries (TypeRef.Stood tokens) tokens count (binaryStep inner least left)
      (binaryStep inner least (left.mapSpans (moved count))) i := by
  unfold binaryStep
  simp only [Expr.mapSpans_span,moved_start]
  refine .get (.ite Iff.rfl (fun _ => .skip 1 fun _ => .bind .skipVariableModifiers fun _ _ _ => ?_) fun _ => ?_)
  · refine .bind (.typeRefOrEmpty plain) fun type _ typed => .get (.ite Iff.rfl (fun _ => .skip 1 fun _ => ?_) fun _ => ?_)
    all_goals exact .spanFrom fun _ => .pure rfl (by simpa using And.intro typed first)
  · simp only [Cursor.later_next?]
    split
    · refine .ite Iff.rfl (fun _ => .pure rfl .none) fun _ => .skip 1 fun _ => ?_
      refine .bind (carries.binary _ _) fun right _ read => .pure (by simp) ?_
      simpa using And.intro first read
    · exact .pure rfl .none

theorem binary_carries (plain : ∀ token ∈ tokens, token.Plain) (least : Nat) :
    Carries (TypeRef.Stood tokens) tokens count (binary inner least) (binary inner least) i :=
  .bind (unary_carries carries plain) fun _ _ first =>
    .repeated first fun _ _ given => binaryStep_carries carries plain least given

theorem conditional_carries (plain : ∀ token ∈ tokens, token.Plain) :
    Carries (TypeRef.Stood tokens) tokens count (conditional inner) (conditional inner) i := by
  refine .bind (binary_carries carries plain 1) fun condition _ first => .eat (fun _ => ?_) (.pure rfl first)
  refine .bind (carries.expr _) fun yes _ second => .bind Carries.expect.discard fun _ _ _ => ?_
  refine .bind (carries.conditional _) fun no _ third => .pure (by simp) ?_
  simpa using And.intro first (And.intro second third)

theorem expr_carries (plain : ∀ token ∈ tokens, token.Plain) :
    Carries (TypeRef.Stood tokens) tokens count (expr inner) (expr inner) i := by
  refine .bind (conditional_carries carries plain) fun left _ first => .get ?_
  simp only [Cursor.later_next?]
  split
  · refine .skip 1 fun _ => .bind (carries.expr _) fun right _ second => .pure (by simp) ?_
    simpa using And.intro first second
  · exact .pure rfl first

theorem initializer_carries (plain : ∀ token ∈ tokens, token.Plain) :
    Carries (TypeRef.Stood tokens) tokens count (initializer inner) (initializer inner) i :=
  .sees (arrayInit_carries carries) (expr_carries carries plain)

omit carries

theorem readers_carry (plain : ∀ token ∈ tokens, token.Plain) (depth : Nat) :
    (readers depth).Carries tokens count := by
  induction depth with
  | zero =>
    have missing (i : Nat) : Carries (TypeRef.Stood tokens) tokens count ground.expr ground.expr i :=
      .nextStart (.pure rfl (.silent rfl))
    exact ⟨missing,missing,fun _ => missing,missing,missing⟩
  | succ depth ih =>
    exact ⟨fun _ => expr_carries ih plain,fun _ => conditional_carries ih plain,
      fun least _ => binary_carries ih plain least,fun _ => unary_carries ih plain,
      fun _ => initializer_carries ih plain⟩

end ExprLevel

namespace Carries

variable {tokens : List Token} {count i : Nat} (plain : ∀ token ∈ tokens, token.Plain)

include plain

theorem expr : Carries (TypeRef.Stood tokens) tokens count Parser.expr Parser.expr i :=
  bounded fun turns => (ExprLevel.readers_carry plain turns).expr i

theorem initializer : Carries (TypeRef.Stood tokens) tokens count Parser.initializer Parser.initializer i :=
  bounded fun turns => (ExprLevel.readers_carry plain turns).initializer i

end Carries

attribute [local simp] Stmt.mapSpans Stmt.typeRefs Block.mapSpans Block.typeRefs Catch.mapSpans Catch.typeRefs
  Stmt.mapSpansAll_eq_map Stmt.mapSpansOption_eq Stmt.typeRefsAll_eq Stmt.typeRefsOption_eq Catch.mapSpansAll_eq_map
  Catch.typeRefsAll_eq Block.mapSpansOption_eq Block.typeRefsOption_eq Declarator.mapSpans Declarator.typeRefs
  Stmt.mapSpans_span Block.mapSpans_span Param.mapSpans Ident.mapSpans TypeRef.mapSpans

namespace StmtLevel

variable {tokens : List Token} {count i : Nat} {start : Nat} (plain : ∀ token ∈ tokens, token.Plain)

/-- What is made of a span is moved with it. -/
theorem terminated_carries {make make' : Span → Stmt}
    (moves : ∀ span, make' (moved count span) = (make span).mapSpans (moved count))
    (made : ∀ span, Standing (TypeRef.Stood tokens) (make span)) :
    Carries (TypeRef.Stood tokens) tokens count (terminated start make) (terminated (start + 2 * count) make') i := by
  refine .eat (fun _ => .spanFrom fun _ => .pure (moves _) (made _)) ?_
  exact .bind .skipStatement fun _ _ _ => .bind Carries.eaten.discard fun _ _ _ =>
    .spanFrom fun _ => .pure rfl (.silent rfl)

theorem seesDeclarator_later (inside : i ≤ tokens.length) :
    seesDeclarator ((Cursor.on tokens i).later count) = seesDeclarator (.on tokens i) := by
  have skipped := @Cursor.on_skip_min tokens i 1 inside
  obtain ⟨depth,j,ran,_,_,moved⟩ := (Carries.dimensions : Carries (fun _ => True) tokens count _ _
    (min (i + 1) tokens.length)) (Nat.min_le_right _ _)
  unfold seesDeclarator
  rw [Cursor.later_skip,skipped,ran,moved]
  rfl

include plain

theorem declarators_carry (turns : Nat) :
    Carries (TypeRef.Stood tokens) tokens count (declarators turns) (declarators turns) i := by
  induction turns generalizing i with
  | zero => exact .pure rfl .nil
  | succ turns ih =>
    refine .bind .expect fun name _ _ => .bind Carries.dimensions.discard fun _ _ _ => ?_
    refine .eat (fun _ => .bind (.initializer plain) fun e _ given =>
      .bind (.pure rfl (.some given)) fun value _ given => ?_) (.bind (.pure rfl .none) fun value _ given => ?_)
    all_goals
      refine .spanFrom fun span => .eat (fun _ => .bind ih fun list _ rest => ?_) ?_
      · exact .pure (by simp) (by simpa using And.intro given rest)
      · exact .pure (by simp) (by simpa using given)

theorem localVariables_carry :
    Carries (TypeRef.Stood tokens) tokens count localVariables localVariables i := by
  refine .inside fun inside => .get (.bind .skipVariableModifiers fun _ j _ => .get ?_)
  refine .ite Iff.rfl (fun _ => .set inside (.pure rfl .none)) fun _ => .bind (.typeStood plain) fun found k typed => ?_
  cases found with
  | none => exact .set inside (.pure rfl .none)
  | some type =>
    refine .inside fun bound => .get (.ite ?_ (fun _ => ?_) fun _ => .set inside (.pure rfl .none))
    · rw [seesDeclarator_later bound]
    · refine .bind (.bounded fun turns => declarators_carry plain turns) fun list l read => ?_
      refine .bind ?_ fun stmt _ made => .pure rfl made.some
      rw [Cursor.later_nextStart]
      refine terminated_carries (fun span => by simp) fun span => by simpa using And.intro typed.of_some read

theorem parenCondition_carries :
    Carries (TypeRef.Stood tokens) tokens count parenCondition parenCondition i :=
  .bind Carries.expect.discard fun _ _ _ => .bind (.expr plain) fun _ _ read =>
    .bind Carries.expect.discard fun _ _ _ => .pure rfl read

theorem element_carries : Carries (TypeRef.Stood tokens) tokens count element element i := by
  refine .inside fun inside => .get (.bind .skipVariableModifiers fun _ j _ => .bind (.typeStood plain) ?_)
  refine fun found k typed => .get ?_
  rw [show ((Cursor.on tokens k).later count).rest = (Cursor.on tokens k).rest from rfl]
  generalize (Cursor.on tokens k).rest = rest
  have back : Carries (TypeRef.Stood tokens) tokens count (do set (Cursor.on tokens i); return (none : Option Param))
      (do set ((Cursor.on tokens i).later count); return none) k := .set inside (.pure rfl .none)
  cases found with
  | none => exact back
  | some type =>
    rcases rest with _ | ⟨name,_ | ⟨colon,rest⟩⟩
    · exact back
    · exact back
    · refine .ite Iff.rfl (fun _ => .bind .expect fun name _ _ => .skip 1 fun _ => ?_) fun _ => back
      exact .pure (by simp) (.some typed.of_some)

theorem loopInit_carries : Carries (TypeRef.Stood tokens) tokens count loopInit loopInit i := by
  refine .bind (localVariables_carry plain) fun found _ read => ?_
  cases found with
  | some stmt => exact .pure rfl (.cons read.of_some .nil)
  | none =>
    refine .bind (.separated fun _ => .expr plain) fun values _ read => .bind Carries.expect.discard fun _ _ _ => ?_
    exact .pure (by simp) (by simpa using read)

theorem caughtType_carries {type : TypeRef} {k : Nat} (caught : type.Caught tokens i k) :
    Carries (TypeRef.Stood tokens) tokens count (caughtType type) (caughtType (type.mapSpans (moved count))) k := by
  have anyhow : Carries (fun _ => True) tokens count (caughtType type) (caughtType (type.mapSpans (moved count))) k := by
    refine .eat (fun _ => .bind (.typeRef (typeRef_shows plain |>.mono fun _ _ _ _ _ _ => trivial))
      fun found _ _ => ?_) (.pure rfl .none)
    cases found with
    | none => exact .pure rfl fun _ _ => trivial
    | some other => exact .pure (by simp) fun _ _ => trivial
  refine (Reads.and (caughtType_stands plain caught) anyhow).mono fun found m ⟨given,_,moved⟩ _ => ⟨?_,moved⟩
  cases found with
  | none => exact .none
  | some type =>
    obtain ⟨j,_,stands,_⟩ := given
    exact Standing.some fun _ listed => List.mem_singleton.mp listed ▸ ⟨i,j,stands⟩

variable {inner : Parser (Option Stmt)} (carries : ∀ i, Carries (TypeRef.Stood tokens) tokens count inner inner i)

include carries

omit plain in
theorem block_carries : Carries (TypeRef.Stood tokens) tokens count (block inner) (block inner) i := by
  refine .bind .expect fun brace _ _ => .bind (.gathered carries) fun statements _ read => ?_
  exact .bind Carries.expect.discard fun _ _ _ => .spanFrom fun _ => .pure (by simp) (by simpa using read)

omit plain in
theorem substatement_carries :
    Carries (TypeRef.Stood tokens) tokens count (substatement inner) (substatement inner) i := by
  refine .get (.bind (carries _) fun found k read => ?_)
  cases found with
  | none => exact .lastStop (.pure rfl (.silent rfl))
  | some stmt =>
    exact .get (.ite (Nat.add_right_cancel_iff ..).symm (fun _ => .lastStop (.pure rfl (.silent rfl)))
      fun _ => .pure rfl read.of_some)

theorem ifElse_carries :
    Carries (TypeRef.Stood tokens) tokens count (ifElse inner start) (ifElse inner (start + 2 * count)) i := by
  refine .bind (parenCondition_carries plain) fun condition _ first =>
    .bind (substatement_carries carries) fun yes _ second => ?_
  refine .eatWord (fun _ => .bind (substatement_carries carries) fun no _ third =>
    .bind (.pure rfl third.some) fun no _ third => ?_) (.bind (.pure rfl .none) fun no _ third => ?_)
  all_goals
    refine .spanFrom fun _ => .pure (by simp) ?_
    simpa using And.intro first (And.intro second third)

theorem whileLoop_carries :
    Carries (TypeRef.Stood tokens) tokens count (whileLoop inner start) (whileLoop inner (start + 2 * count)) i := by
  refine .bind (parenCondition_carries plain) fun condition _ first =>
    .bind (substatement_carries carries) fun body _ second => ?_
  exact .spanFrom fun _ => .pure rfl (by simpa using And.intro first second)

theorem forLoop_carries :
    Carries (TypeRef.Stood tokens) tokens count (forLoop inner start) (forLoop inner (start + 2 * count)) i := by
  refine .bind Carries.expect.discard fun _ _ _ => .bind (element_carries plain) fun found _ typed => ?_
  cases found with
  | some element =>
    refine .bind (.expr plain) fun iterable _ first => .bind Carries.expect.discard fun _ _ _ => ?_
    refine .bind (substatement_carries carries) fun body _ second => .spanFrom fun _ => .pure rfl ?_
    simpa using And.intro typed.of_some (And.intro first second)
  | none =>
    refine .bind (loopInit_carries plain) fun init _ first =>
      .sees (.bind (.pure rfl .none) fun condition _ second => ?_) (.bind (.expr plain) fun e _ second =>
        .bind (.pure rfl second.some) fun condition _ second => ?_)
    all_goals
      refine .bind Carries.expect.discard fun _ _ _ => .bind (.separated fun _ => .expr plain) fun update _ third => ?_
      refine .bind Carries.expect.discard fun _ _ _ => .bind (substatement_carries carries) fun body _ fourth => ?_
      refine .spanFrom fun _ => .pure (by simp) ?_
      simpa using And.intro first (And.intro second (And.intro third fourth))

theorem catchClause_carries :
    Carries (TypeRef.Stood tokens) tokens count (catchClause inner) (catchClause inner) i := by
  refine .nextStart (.eatWord (fun _ => .bind Carries.expect.discard fun _ _ _ =>
    .bind .skipVariableModifiers fun _ j _ => ?_) (.pure rfl .none))
  refine .follow (typeRefOrEmpty_stands plain) (.typeRefOrEmpty plain) fun type k stands _ _ => ?_
  refine .bind (.repeatedOf (fun type => type.Caught tokens j) stands.caught ?_
    (fun _ _ => caughtType_stands plain) fun _ _ => caughtType_carries plain) fun type _ typed => ?_
  · rintro type l ⟨m,_,stands,_⟩ _ listed
    exact List.mem_singleton.mp listed ▸ ⟨j,m,stands⟩
  · refine .bind .expect fun name _ _ => .bind Carries.expect.discard fun _ _ _ =>
      .bind (block_carries carries) fun body _ read => ?_
    exact .pure (by simp) (by simpa using And.intro typed read)

theorem tryCatch_carries :
    Carries (TypeRef.Stood tokens) tokens count (tryCatch inner start) (tryCatch inner (start + 2 * count)) i := by
  refine .bind (.skipNested _ _) fun _ _ _ => .bind (block_carries carries) fun body _ first => ?_
  refine .bind (.many fun _ => catchClause_carries plain carries) fun catches _ second => ?_
  refine .eatWord (fun _ => .bind (block_carries carries) fun cleanup _ third =>
    .bind (.pure rfl third.some) fun cleanup _ third => ?_) (.bind (.pure rfl .none) fun cleanup _ third => ?_)
  all_goals
    refine .spanFrom fun _ => .pure (by simp) ?_
    simpa using And.intro first (And.intro second third)

omit plain in
theorem passUnsupported_carries :
    Carries (TypeRef.Stood tokens) tokens count (passUnsupported inner) (passUnsupported inner) i := by
  have nested (j : Nat) : Carries (TypeRef.Stood tokens) tokens count (do
      Parser.skipNested .parenOpen .parenClose
      Parser.skipNested .braceOpen .braceClose
      return true) (do
      Parser.skipNested .parenOpen .parenClose
      Parser.skipNested .braceOpen .braceClose
      return true) j :=
    .bind (.skipNested _ _) fun _ _ _ => .bind (.skipNested _ _) fun _ _ _ => .pure rfl (.silent rfl)
  refine .eatWord nested (.eatWord nested (.eatWord (fun _ => ?_) (.get ?_)))
  · refine .bind (substatement_carries carries).discard fun _ _ _ => .eatWord (fun _ => ?_) ?_
    · exact .bind (.skipNested _ _) fun _ _ _ => .bind Carries.expect.discard fun _ _ _ => .pure rfl (.silent rfl)
    · exact .bind Carries.expect.discard fun _ _ _ => .pure rfl (.silent rfl)
  · simp only [Cursor.later_skip]
    refine .ite Iff.rfl (fun _ => ?_) fun _ => .ite Iff.rfl (fun _ => ?_) fun _ =>
      .ite Iff.rfl (fun _ => ?_) fun _ => .pure rfl (.silent rfl)
    · exact .bind (.skipWhile _) fun _ _ _ => .bind (.skipNested _ _) fun _ _ _ => .pure rfl (.silent rfl)
    · exact .bind .skipStatement fun _ _ _ => .bind Carries.expect.discard fun _ _ _ => .pure rfl (.silent rfl)
    · exact .skip 2 fun _ => .bind (substatement_carries carries).discard fun _ _ _ => .pure rfl (.silent rfl)

omit plain carries in
theorem jump_carries {make : Span → Stmt} (moves : ∀ span, make (moved count span) = (make span).mapSpans (moved count))
    (made : ∀ span, Standing (TypeRef.Stood tokens) (make span)) :
    Carries (TypeRef.Stood tokens) tokens count (jump start make) (jump (start + 2 * count) make) i :=
  .bind Carries.eaten.discard fun _ _ _ => .bind Carries.expect.discard fun _ _ _ =>
    .spanFrom fun span => .pure (moves span) (made span)

theorem stmt_carries : Carries (TypeRef.Stood tokens) tokens count (stmt inner) (stmt inner) i := by
  have found {read other : Parser Stmt} {j : Nat} (carries : Carries (TypeRef.Stood tokens) tokens count read other j) :
      Carries (TypeRef.Stood tokens) tokens count (do return some (← read)) (do return some (← other)) j :=
    .bind carries fun _ _ made => .pure rfl made.some
  refine .get ?_
  simp only [Cursor.later_nextStart,Cursor.later_nextSpan]
  refine .ite Iff.rfl (fun _ => .pure rfl .none) fun _ => .eat (fun _ => .pure rfl (.silent rfl)) (.sees ?_ ?_)
  · refine .bind (block_carries carries) fun body _ read => .pure rfl ?_
    exact .some read
  refine .eatWord (fun _ => ?returns) (.eatWord (fun _ => ?throws) (.eatWord (fun _ => found (ifElse_carries plain carries))
    (.eatWord (fun _ => found (whileLoop_carries plain carries)) (.eatWord (fun _ => found (forLoop_carries plain carries))
      (.eatWord (fun _ => found (tryCatch_carries plain carries))
        (.eatWord (fun _ => found (jump_carries (fun _ => rfl) fun _ => nofun))
        (.eatWord (fun _ => found (jump_carries (fun _ => rfl) fun _ => nofun))
          (.bind (passUnsupported_carries carries) fun passed _ _ =>
            .ite Iff.rfl (fun _ => ?unsupported) fun _ => ?other))))))))
  case returns =>
    refine .sees (.bind (.pure rfl .none) fun value _ read => ?_)
      (.bind (.expr plain) fun e _ read => .bind (.pure rfl read.some) fun value _ read => ?_)
    all_goals exact found (terminated_carries (fun _ => by simp) fun _ => by simpa using read)
  case throws =>
    exact .bind (.expr plain) fun e _ read => found (terminated_carries (fun _ => rfl) fun _ => read)
  case unsupported => exact .spanFrom fun _ => .pure rfl (.silent rfl)
  case other =>
    refine .bind (localVariables_carry plain) fun made _ read => ?_
    cases made with
    | some stmt => exact .pure rfl read
    | none =>
      refine .bind (.expr plain) fun value _ read => found (terminated_carries (fun _ => by simp) fun _ => read)

omit carries

theorem reader_carries (depth : Nat) :
    Carries (TypeRef.Stood tokens) tokens count (reader depth) (reader depth) i := by
  induction depth generalizing i with
  | zero => exact .pure rfl .none
  | succ depth ih => exact stmt_carries plain fun _ => ih

end StmtLevel

namespace Carries

variable {tokens : List Token} {count i : Nat} (plain : ∀ token ∈ tokens, token.Plain)

include plain

theorem block : Carries (TypeRef.Stood tokens) tokens count Parser.block Parser.block i :=
  StmtLevel.block_carries fun _ => bounded fun turns => StmtLevel.reader_carries plain turns

end Carries

attribute [local simp] TypeDecl.mapSpans TypeDecl.typeRefs Member.mapSpans Member.typeRefs Member.mapSpansAll_eq_map
  Member.typeRefsAll_eq FieldDecl.mapSpans MethodDecl.mapSpans ConstructorDecl.mapSpans InitializerDecl.mapSpans
  TypeDecl.mapSpans_span

namespace MemberLevel

variable {tokens : List Token} {count i : Nat} {start : Nat}

theorem enumConstant_carries : Carries (TypeRef.Stood tokens) tokens count enumConstant enumConstant i := by
  refine .eat (fun _ => .pure rfl .none) (.get (.ite Iff.rfl (fun _ => .pure rfl .none) fun _ => ?_))
  refine .bind Carries.modifiers.discard fun _ _ _ => .eat (fun _ => ?_) (.skip 1 fun _ => .pure rfl (.silent rfl))
  refine .bind (.skipNested _ _) fun _ _ _ => .bind (.skipNested _ _) fun _ _ _ => ?_
  exact .bind Carries.eaten.discard fun _ _ _ => .pure rfl (.silent rfl)

theorem enumConstants_carry : Carries (TypeRef.Stood tokens) tokens count
    (Parser.repeated (fun _ => enumConstant) ()) (Parser.repeated (fun _ => enumConstant) ()) i :=
  .repeated (.silent rfl) fun _ _ _ => enumConstant_carries

theorem skipThrows_carries : Carries (TypeRef.Stood tokens) tokens count skipThrows skipThrows i := by
  refine .eatWord (fun _ => ?_) (.pure rfl (.silent rfl))
  simp only [if_true]
  exact .skipWhile _

theorem typeKind?_later (cursor : Cursor) : typeKind? (cursor.later count) = typeKind? cursor := by
  simp only [typeKind?,Cursor.later_skip]
  rfl

theorem seesMemberType_later (cursor : Cursor) : seesMemberType (cursor.later count) = seesMemberType cursor := by
  simp only [seesMemberType,typeKind?_later,Cursor.later_skip]
  rfl

section

variable {inner : String → Parser (Option Member)}
  (carries : ∀ owner i, Carries (TypeRef.Stood tokens) tokens count (inner owner) (inner owner) i)

include carries

theorem typeDecl_carries : Carries (TypeRef.Stood tokens) tokens count (typeDecl inner) (typeDecl inner) i := by
  refine .inside fun inside => .get (.bind .modifiers fun flags j _ => .get ?_)
  rw [typeKind?_later,Cursor.later_nextStart]
  split
  · exact .set inside (.pure rfl .none)
  · refine .skip _ fun _ => .bind .expect fun name _ _ => .bind (.skipWhile _) fun _ _ _ =>
      .bind .expect fun brace _ _ => ?_
    refine .ite Iff.rfl (fun _ => .bind enumConstants_carry fun _ _ _ => ?_) fun _ => ?_
    all_goals
      refine .bind (.gathered fun _ => carries _ _) fun members _ read => .bind Carries.expect.discard fun _ _ _ => ?_
      exact .spanFrom fun body => .pure (by simp) (by simpa using read)

end

variable (plain : ∀ token ∈ tokens, token.Plain)

include plain

theorem initializer_carries (isStatic : Bool) : Carries (TypeRef.Stood tokens) tokens count
    (initializer start isStatic) (initializer (start + 2 * count) isStatic) i :=
  .bind (.block plain) fun body _ read => .pure (by simp) read

theorem constructor_carries (flags : Modifiers) : Carries (TypeRef.Stood tokens) tokens count
    (constructor start flags) (constructor (start + 2 * count) flags) i := by
  refine .bind .expect fun name _ _ => .bind (.paramList plain) fun params _ first =>
    .bind skipThrows_carries fun _ _ _ => ?_
  refine .bind (.block plain) fun body _ second => .pure (by simp) ?_
  simpa using And.intro first.params second

theorem method_carries (flags : Modifiers) {type : TypeRef} {name : Ident} (typed : Standing (TypeRef.Stood tokens) type) :
    Carries (TypeRef.Stood tokens) tokens count (method start flags type name)
      (method (start + 2 * count) flags (type.mapSpans (moved count)) (name.mapSpans (moved count))) i := by
  refine .bind (.paramList plain) fun params _ first => .bind Carries.dimensions.discard fun _ _ _ => ?_
  refine .bind skipThrows_carries fun _ _ _ => .sees (.bind (.block plain) fun body _ second => .pure (by simp) ?_) ?_
  · simpa using And.intro typed (And.intro first.params second)
  · refine .bind .skipStatement fun _ _ _ => .bind Carries.expect.discard fun _ _ _ => .spanFrom fun _ => ?_
    exact .pure (by simp) (by simpa using And.intro typed first.params)

omit plain in
theorem field_carries (flags : Modifiers) {type : TypeRef} {name : Ident} (typed : Standing (TypeRef.Stood tokens) type) :
    Carries (TypeRef.Stood tokens) tokens count (field start flags type name)
      (field (start + 2 * count) flags (type.mapSpans (moved count)) (name.mapSpans (moved count))) i :=
  .bind .skipStatement fun _ _ _ => .bind Carries.expect.discard fun _ _ _ => .spanFrom fun _ => .pure rfl typed

theorem member_carries {inner : String → Parser (Option Member)}
    (carries : ∀ owner i, Carries (TypeRef.Stood tokens) tokens count (inner owner) (inner owner) i) (owner : String) :
    Carries (TypeRef.Stood tokens) tokens count (member inner owner) (member inner owner) i := by
  have found {read other : Parser Member} {j : Nat} (carries : Carries (TypeRef.Stood tokens) tokens count read other j) :
      Carries (TypeRef.Stood tokens) tokens count (do return some (← read)) (do return some (← other)) j :=
    .bind carries fun _ _ made => .pure rfl made.some
  refine .get ?_
  rw [Cursor.later_nextStart]
  refine .ite Iff.rfl (fun _ => .pure rfl .none) fun _ => .bind .modifiers fun flags k _ => .get ?_
  rw [Cursor.later_skip,seesMemberType_later]
  refine .ite Iff.rfl (fun _ => .skip 1 fun _ => found (initializer_carries plain _)) fun _ =>
    .ite Iff.rfl (fun _ => found (initializer_carries plain _)) fun _ => .ite Iff.rfl (fun _ => ?_) fun _ => ?_
  · refine .bind (typeDecl_carries carries) fun decl? _ read => ?_
    cases decl? with
    | none => exact .pure rfl .none
    | some decl =>
      cases decl
      exact .pure (by simp) (by simpa using read)
  · refine .bind (.skipNested _ _) fun _ l _ => .get ?_
    rw [Cursor.later_skip]
    refine .ite Iff.rfl (fun _ => found (constructor_carries plain _)) fun _ =>
      .bind (.typeStood plain) fun type? _ typed => ?_
    cases type? with
    | none => exact .pure rfl .none
    | some type =>
      exact .bind .expect fun name _ _ =>
        .sees (found (method_carries plain _ typed.of_some)) (found (field_carries _ typed.of_some))

theorem reader_carries (depth : Nat) (owner : String) :
    Carries (TypeRef.Stood tokens) tokens count (reader depth owner) (reader depth owner) i := by
  induction depth generalizing owner i with
  | zero => exact .pure rfl .none
  | succ depth ih => exact member_carries plain (fun owner _ => ih owner) owner

end MemberLevel

namespace Carries

variable {tokens : List Token} {count i : Nat} (plain : ∀ token ∈ tokens, token.Plain)

include plain

theorem member (owner : String) :
    Carries (TypeRef.Stood tokens) tokens count (Parser.member owner) (Parser.member owner) i :=
  bounded fun turns => MemberLevel.reader_carries plain turns owner

theorem typeDecl : Carries (TypeRef.Stood tokens) tokens count Parser.typeDecl Parser.typeDecl i :=
  MemberLevel.typeDecl_carries fun owner _ => member plain owner

end Carries

/-- Every type of a file stands in its tokens. -/
theorem Reads.compilationUnit_types {tokens : List Token} {i : Nat} (plain : ∀ token ∈ tokens, token.Plain) :
    Reads tokens Parser.compilationUnit i fun file _ => ∀ type ∈ file.typeRefs, type.Stood tokens := by
  refine bind packageDecl_fits fun package j _ _ => bind (Looped.imports.reads j) fun imports k _ _ => ?_
  have types : Carries (TypeRef.Stood tokens) tokens 0 (Parser.gathered [] Parser.typeDecl)
      (Parser.gathered [] Parser.typeDecl) k := .gathered fun _ => .typeDecl plain
  exact bind (types.mono fun _ _ => id) fun types l known _ => nextStart (pure known)

end Transplant.Java
