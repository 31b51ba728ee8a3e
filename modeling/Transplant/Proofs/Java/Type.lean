import Transplant.Proofs.Java.Spelled

/-! Readers that pass over words where no variable can be named, and the reader of types. -/
namespace Transplant.Java

open Token (Kind)

variable {tokens : List Token} {i j k : Nat}

theorem Cursor.on_rest_one {token : Token} {rest : List Token}
    (parted : (Cursor.on tokens i).rest = token :: rest) : tokens[i]? = some token := by
  rw [← List.head?_drop]
  exact congrArg List.head? parted

theorem Cursor.on_rest_two {first second : Token} {rest : List Token}
    (parted : (Cursor.on tokens i).rest = first :: second :: rest) :
    tokens[i]? = some first ∧ tokens[i + 1]? = some second := by
  have later : tokens.drop (i + 1) = second :: rest := by
    have shift : tokens.drop (i + 1) = (tokens.drop i).drop 1 := by simp [List.drop_drop]
    rw [shift,show tokens.drop i = _ from parted]
    rfl
  exact ⟨on_rest_one parted,on_rest_one later⟩

namespace Parser

/-- One more part of a dotted name. -/
def namePart : Parser (Option String) := do
  match (← get).rest with
  | dot :: part :: _ =>
    if dot.kind = .dot && part.kind = .ident then
      skip 2
      return some part.text
    else return none
  | _ => return none

/-- One more annotation or `final` in front of a variable. -/
def variableModifier : Parser (Option Unit) := do
  if ← sees .atSign then
    skipAnnotation
    return some ()
  else if ← eatWord "final" then return some ()
  else return none

theorem qualifiedName_eq : qualifiedName = (do
    let first ← expect .ident
    let parts ← many namePart
    return first.text :: parts) := rfl

theorem skipVariableModifiers_eq : skipVariableModifiers = repeated (fun _ => variableModifier) () := rfl

end Parser

namespace Reads

/-- A symbol is quiet, also when it is missing. -/
theorem expectSymbol {kind : Kind} (symbol : kind ≠ .ident) :
    Reads tokens (Functor.discard (Parser.expect kind)) i fun _ j => Spelled tokens [] i j := by
  refine expect.discard.mono fun _ j ⟨_,known⟩ _ => ?_
  rcases known with ⟨token,found,rfl,_,rfl⟩ | ⟨_,_,rfl⟩
  · exact .quiet (.symbol token found symbol) (.nil _)
  · exact .nil _

theorem namePart : Reads tokens Parser.namePart i fun found j =>
    i ≤ j ∧ (found = none → j = i) ∧ ∀ part, found = some part → i < j := by
  refine get ?_
  split
  · rename_i dot part rest parted
    have second := (List.getElem?_eq_some_iff.mp (Cursor.on_rest_two parted).2).1
    refine ite (fun _ => skip 2 second (pure ⟨by omega,nofun,fun _ _ => by omega⟩)) fun _ => pure ?_
    exact ⟨Nat.le_refl i,fun _ => rfl,nofun⟩
  · exact pure ⟨Nat.le_refl i,fun _ => rfl,nofun⟩

theorem qualifiedName : Reads tokens Parser.qualifiedName i fun _ j => i ≤ j := by
  rw [Parser.qualifiedName_eq]
  refine bind expect fun _ m known _ => ?_
  have first : i ≤ m := by rcases known with ⟨_,_,_,_,rfl⟩ | ⟨_,_,rfl⟩ <;> omega
  have parts : Reads tokens (Parser.many Parser.namePart) m fun _ j => m ≤ j :=
    many (fun _ k j => k ≤ j) (fun k => Nat.le_refl k) fun k _ => namePart.mono fun _ _ ⟨on,ended,_⟩ _ =>
      ⟨on,ended,fun _ _ _ _ later => Nat.le_trans on later⟩
  exact bind parts fun _ j later _ => pure (Nat.le_trans first later)

theorem skipAnnotated (sign : Seen tokens i .atSign) :
    Reads tokens Parser.skipAnnotation i fun _ j => i < j := by
  refine skip 1 sign.lt (sees (fun _ => ?_) fun _ => ?_)
  · refine bind qualifiedName.discard fun _ m ⟨_,on⟩ _ => ?_
    exact (skipNested _ _).mono fun _ _ further _ => by omega
  · exact (skipNested _ _).mono fun _ _ further _ => by omega

theorem variableModifier : Reads tokens Parser.variableModifier i fun found j =>
    Spelled tokens [] i j ∧ ∀ more, found = some more → i < j := by
  refine sees (fun sign => ?_) fun _ => eatWord (fun word => pure ⟨?_,fun _ _ => Nat.lt_succ_self i⟩)
    fun _ => pure ⟨.nil i,nofun⟩
  · refine bind (skipAnnotated sign).passed fun _ m ⟨on,stop⟩ _ => pure ⟨?_,fun _ _ => on⟩
    exact .pass (Nat.le_of_lt on) (fun l low high =>
      .annotated i sign low (by rwa [annotatedEnd,← stop])) (.nil m)
  · exact .quiet (.word "final" word (by decide)) (.nil _)

theorem skipVariableModifiers :
    Reads tokens Parser.skipVariableModifiers i fun _ j => Spelled tokens [] i j := by
  rw [Parser.skipVariableModifiers_eq]
  exact repeated (fun _ j => Spelled tokens [] i j) () (.nil i) fun _ _ before =>
    variableModifier.mono fun _ _ given _ => by simpa using before.append given.1

/-- Type arguments behind a dot or `new` are passed over. -/
theorem skipArguments (front : Seen tokens i .dot ∨ SeenWord tokens i "new") :
    Reads tokens (Parser.skipNested .less .greater) (i + 1) fun _ j =>
      Spelled tokens [] (i + 1) j ∧ j = argumentsEnd tokens (i + 1) := by
  refine (skipNested _ _).passed.mono fun _ j ⟨on,stop⟩ _ => ⟨?_,stop⟩
  exact .pass on (fun k low high => .typeArgument i front low (by rwa [argumentsEnd,← stop])) (.nil j)

theorem typeArguments : Reads tokens Parser.typeArguments i fun _ j => i ≤ j := by
  refine sees (fun _ => get ?_) fun _ => pure (Nat.le_refl i)
  refine assume fun inside => bind (skipBy fun _ => _) fun _ _ stop _ => pure ?_
  omega

theorem typeSegment (text : String) : Steps tokens (Parser.typeSegment text) i := by
  refine get ?_
  split
  · rename_i dot part rest parted
    have second := (List.getElem?_eq_some_iff.mp (Cursor.on_rest_two parted).2).1
    refine ite (fun _ => skip 2 second ?_) fun _ => pure ⟨Nat.le_refl i,nofun⟩
    exact bind typeArguments fun _ _ on _ => pure ⟨by omega,fun _ _ => by omega⟩
  · exact pure ⟨Nat.le_refl i,nofun⟩

theorem dimension (count : Nat) : Reads tokens (Parser.dimension count) i fun found j =>
    Spelled tokens [] i j ∧ ∀ more, found = some more → i < j := by
  refine get ?_
  split
  · rename_i left right rest parted
    obtain ⟨first,second⟩ := Cursor.on_rest_two parted
    refine ite (fun both => skip 2 (List.getElem?_eq_some_iff.mp second).1 (pure ⟨?_,fun _ _ => by omega⟩))
      fun _ => pure ⟨.nil i,nofun⟩
    simp only [Bool.and_eq_true,decide_eq_true_eq] at both
    exact .quiet (.symbol left first (by simp [both.1])) (.quiet (.symbol right second (by simp [both.2])) (.nil _))
  · exact pure ⟨.nil i,nofun⟩

theorem dimensions : Reads tokens Parser.dimensions i fun _ j => Spelled tokens [] i j :=
  repeated (fun _ j => Spelled tokens [] i j) 0 (.nil i) fun count _ before =>
    (dimension count).mono fun _ _ given _ => by simpa using before.append given.1

/-- What `typeRef` answers: nothing where no word stands, otherwise the type of its tokens. -/
def TypeRead (tokens : List Token) (i : Nat) (found : Option TypeRef) (j : Nat) : Prop :=
  (found = none ∧ ¬ Seen tokens i .ident ∧ j = i) ∨
  ∃ type, found = some type ∧ Seen tokens i .ident ∧ i < j ∧ type.span = ⟨2 * i + 1,2 * j⟩

theorem typeRef : Reads tokens Parser.typeRef i (TypeRead tokens i) := by
  refine sees (fun seen => ?_) fun unseen => pure (.inl ⟨rfl,unseen,rfl⟩)
  refine nextStart (bind expect fun first m known _ => ?_)
  have after : m = i + 1 := by
    rcases known with ⟨_,_,_,_,after⟩ | ⟨unseen,_⟩
    · exact after
    · exact absurd seen unseen
  refine bind typeArguments fun _ k inside _ => ?_
  refine bind (repeated (fun _ j => k ≤ j) _ (Nat.le_refl k) fun text l low =>
    (typeSegment text).mono fun _ _ on _ => Nat.le_trans low on.1) fun _ l segments _ => ?_
  refine bind dimensions fun _ j depth _ => spanFrom (pure (.inr ⟨_,rfl,seen,?_,?_⟩))
  · have := depth.le
    omega
  · have := depth.le
    exact Span.upTo_eq (by omega)

/-- A type that may be missing stands where its tokens stand or before the next token. -/
theorem typeRefOrEmpty : Reads tokens Parser.typeRefOrEmpty i fun type j =>
    i ≤ j ∧ type.span.start = 2 * i + 1 ∧ 2 * j ≤ type.span.stop ∧ type.span.stop ≤ 2 * j + 1 := by
  refine bind typeRef fun found j known _ => ?_
  rcases known with ⟨rfl,_,rfl⟩ | ⟨type,rfl,_,on,span⟩
  · exact nextStart (pure ⟨Nat.le_refl _,rfl,by simp [Span.empty],Nat.le_refl _⟩)
  · exact pure ⟨Nat.le_of_lt on,by rw [span],by simp [span],by simp [span]⟩

end Reads
end Transplant.Java
