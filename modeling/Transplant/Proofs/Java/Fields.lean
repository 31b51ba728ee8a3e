import Transplant.Proofs.Java.Brackets
import Transplant.Proofs.Java.Nested

/-! Declarations of fields. However many names are declared, the reader of members makes one field, of the
first name, and goes on behind the semicolon. -/
namespace Transplant.Java

open Relation (ReflTransGen)
open Token (Kind)

namespace Token

def atSign : Token := ⟨.atSign,"@"⟩

def assign : Token := ⟨.assign,"="⟩

end Token

/-- A name of several parts. -/
def dotted (first : String) (parts : List String) : List Token :=
  word first :: parts.flatMap fun part => [.dot,word part]

/-- Arguments in parentheses, if there are any. -/
def IsArguments (arguments : List Token) : Prop :=
  arguments = [] ∨ ∃ inner, arguments = .parenOpen :: (inner ++ [.parenClose]) ∧ Balanced [] inner

/-- Modifiers and annotations, behind which the last flags are set in addition to the first. -/
inductive ModifierWords : Modifiers → List Token → Modifiers → Prop where
  | nil (flags : Modifiers) : ModifierWords flags [] flags
  | word {flags last : Modifiers} {text : String} {rest : List Token} (known : text ∈ Parser.modifierWords)
      (behind : ModifierWords (flags.add text) rest last) : ModifierWords flags (word text :: rest) last
  | annotated {flags last : Modifiers} {first : String} {parts : List String} {arguments rest : List Token}
      (named : first ≠ "interface") (closed : IsArguments arguments) (behind : ModifierWords flags rest last) :
      ModifierWords flags (.atSign :: (dotted first parts ++ (arguments ++ rest))) last

/-- What follows a name that is declared: its dimensions and its value. -/
def IsTail (tail : List Token) : Prop := ∃ depth value, tail = dimensionTokens depth ++ value ∧
  (value = [] ∨ ∃ inner, value = .assign :: inner ∧ Balanced [.semicolon] inner)

/-- Names that are declared, with commas between them. -/
inductive DeclaratorWords : List String → List Token → Prop where
  | last {name : String} {tail : List Token} (own : IsTail tail) : DeclaratorWords [name] (word name :: tail)
  | more {name : String} {tail : List Token} {names : List String} {rest : List Token} (own : IsTail tail)
      (behind : DeclaratorWords names rest) : DeclaratorWords (name :: names) (word name :: (tail ++ .comma :: rest))

/-- Words that begin something else than a type. -/
def typeWords : List String := ["class","interface","enum"]

/-- The words of a declaration of fields, from its modifiers to its semicolon. -/
inductive FieldWords (flags : Modifiers) : String → List String → List Token → Prop where
  | intro {front head list : List Token} {text : String} {names : List String} (depth : Nat)
      (modifiers : ModifierWords .none front flags) (type : TypeWords head text)
      (free : ∀ first ∈ head.head?, first.text ∉ Parser.modifierWords ++ typeWords)
      (declarators : DeclaratorWords names list) :
      FieldWords flags (text ++ String.join (List.replicate depth "[]")) names
        (front ++ (head ++ (dimensionTokens depth ++ (list ++ [.semicolon]))))

theorem FieldWords.lasting {flags : Modifiers} {type : String} {names : List String} {words : List Token}
    (spelled : FieldWords flags type names words) : 0 < words.length := by
  obtain ⟨⟩ := spelled
  simp only [List.length_append,List.length_cons]
  omega

/-- Modifiers are followed by further ones or by a type. -/
theorem ModifierWords.begins {flags last : Modifiers} {front : List Token} (spelled : ModifierWords flags front last)
    (text : String) (rest : List Token) : ∀ token ∈ (front ++ Java.word text :: rest).head?,
      token.kind = .ident ∨ token.kind = .atSign := by
  cases spelled with
  | nil => rintro _ ⟨⟩; exact .inl rfl
  | word => rintro _ ⟨⟩; exact .inl rfl
  | annotated => rintro _ ⟨⟩; exact .inr rfl

namespace Parser

variable {p : Nat} {list rest : List Token}

theorem namePart_stops (undotted : Lacks .dot rest) : namePart ⟨p,rest⟩ = (none,⟨p,rest⟩) := by
  rcases rest with _ | ⟨dot,_ | ⟨part,more⟩⟩
  · rfl
  · rfl
  · have other : dot.kind ≠ .dot := undotted dot rfl
    rw [namePart,run_bind,run_get]
    simp [other,run_pure]

theorem nameParts_run (parts : List String) (undotted : Lacks .dot rest) (turns : Nat) (enough : parts.length < turns) :
    collect namePart turns ⟨p,(parts.flatMap fun part => [.dot,word part]) ++ rest⟩ =
      (parts,⟨p + 2 * parts.length,rest⟩) := by
  obtain ⟨turns,rfl⟩ := Nat.exists_eq_add_one_of_ne_zero (Nat.ne_zero_of_lt enough)
  induction parts generalizing p turns with
  | nil =>
    rw [collect,run_bind,List.flatMap_nil,List.nil_append,namePart_stops undotted]
    rfl
  | cons part parts ih =>
    obtain ⟨turns,rfl⟩ := Nat.exists_eq_add_one_of_ne_zero (Nat.ne_zero_of_lt (Nat.lt_of_succ_lt_succ enough))
    have found : namePart ⟨p,((part :: parts).flatMap fun part => [.dot,word part]) ++ rest⟩ =
        (some part,⟨p + 2,(parts.flatMap fun part => [.dot,word part]) ++ rest⟩) := rfl
    rw [collect,run_bind,found]
    dsimp only
    rw [run_bind,ih turns (Nat.lt_of_succ_lt_succ enough),run_pure,List.length_cons,Nat.mul_add,Nat.add_assoc,
      Nat.add_comm 2]

theorem length_dotted (first : String) (parts : List String) : (dotted first parts).length = 1 + 2 * parts.length := by
  simp [dotted,Nat.add_comm,Nat.mul_comm]

/-- A dotted name is read up to where no further part of it stands. -/
theorem qualifiedName_run (first : String) (parts : List String) (undotted : Lacks .dot rest) :
    qualifiedName ⟨p,dotted first parts ++ rest⟩ =
      (first :: parts,⟨p + (dotted first parts).length,rest⟩) := by
  have enough : parts.length < ((parts.flatMap fun part => [Token.dot,word part]) ++ rest).length + 1 := by
    have size := length_dotted first parts
    rw [dotted,List.length_cons] at size
    rw [List.length_append]
    omega
  rw [qualifiedName_eq,run_bind,dotted,List.cons_append,expect_word,run_bind]
  change (first :: (collect namePart _ _).1,(collect namePart _ _).2) = _
  rw [nameParts_run parts undotted _ enough,← dotted,length_dotted,Nat.add_assoc]

theorem skipAnnotation_run (first : String) (parts : List String) {arguments : List Token}
    (closed : IsArguments arguments) (undotted : Lacks .dot rest) (unopened : Lacks .parenOpen rest) :
    skipAnnotation ⟨p,.atSign :: (dotted first parts ++ (arguments ++ rest))⟩ =
      ((),⟨p + (1 + (dotted first parts).length + arguments.length),rest⟩) := by
  have named : Lacks .dot (arguments ++ rest) := by
    rcases closed with rfl | ⟨inner,rfl,_⟩
    · exact undotted
    · exact .cons _ (by decide)
  have passed : skipNested .parenOpen .parenClose ⟨p + 1 + (dotted first parts).length,arguments ++ rest⟩ =
      ((),⟨p + 1 + (dotted first parts).length + arguments.length,rest⟩) := by
    rcases closed with rfl | ⟨inner,rfl,balanced⟩
    · exact skipNested_lacking unopened
    · have shape : .parenOpen :: (inner ++ [.parenClose]) ++ rest = Token.parenOpen :: (inner ++ .parenClose :: rest) := by
        simp
      have run := @skipNested_enclosed (p + 1 + (dotted first parts).length) inner rest _
        (.parenOpen,.parenClose) balanced List.mem_cons_self
      rw [shape]
      refine run.trans (arrive ?_)
      simp only [List.length_cons,List.length_append,List.length_nil]
  rw [ skipAnnotation,run_bind,run_skip,run_bind,run_sees]
  have seen : (Cursor.mk (p + 1) (dotted first parts ++ (arguments ++ rest))).sees .ident = true := rfl
  simp only [seen,if_true]
  rw [run_bind,run_discard,qualifiedName_run first parts named]
  refine passed.trans (arrive ?_)
  omega

/-- One modifier word. -/
theorem modifier_word (flags : Modifiers) {text : String} (known : text ∈ modifierWords)
    (plain : ∀ token ∈ rest.head?, token.kind = .ident ∨ token.kind = .atSign) :
    modifier flags ⟨p,word text :: rest⟩ = (some (flags.add text),⟨p + 1,rest⟩) := by
  have other : text ≠ "non" := by
    rintro rfl
    exact absurd known (by decide)
  have follows (kind : Kind) (symbol : kind ≠ .ident ∧ kind ≠ .atSign) : rest.head?.any (·.kind == kind) = false := by
    cases rest with
    | nil => rfl
    | cons token rest =>
      refine beq_eq_false_iff_ne.mpr ?_
      rintro rfl
      exact (plain token rfl).elim symbol.1 symbol.2
  rw [modifier,run_bind,run_get]
  simp [word,Token.isWord,other,known,follows .braceOpen (by decide),follows .parenOpen (by decide)]
  rfl

theorem modifier_annotated (flags : Modifiers) (first : String) (parts : List String) {arguments : List Token}
    (named : first ≠ "interface") (closed : IsArguments arguments) (undotted : Lacks .dot rest)
    (unopened : Lacks .parenOpen rest) :
    modifier flags ⟨p,.atSign :: (dotted first parts ++ (arguments ++ rest))⟩ =
      (some flags,⟨p + (1 + (dotted first parts).length + arguments.length),rest⟩) := by
  have unseen : seesAnnotationType ⟨p,.atSign :: (dotted first parts ++ (arguments ++ rest))⟩ =
      (false,⟨p,.atSign :: (dotted first parts ++ (arguments ++ rest))⟩) := by
    have other : (first == "interface") = false := beq_eq_false_iff_ne.mpr named
    rw [seesAnnotationType,run_bind,run_get,dotted]
    simp [word,Token.isWord,other,run_pure]
  rw [modifier,run_bind,run_get]
  simp only [show Token.atSign.kind = .atSign from rfl,if_true]
  rw [run_bind,unseen]
  simp only [Bool.false_eq_true,if_false]
  rw [run_bind,skipAnnotation_run first parts closed undotted unopened,run_pure]

/-- What is no modifier stops their reader. -/
theorem modifier_other (flags : Modifiers) {text : String} (free : text ∉ modifierWords) (plain : Lacks .minus rest) :
    modifier flags ⟨p,word text :: rest⟩ = (none,⟨p,word text :: rest⟩) := by
  have follows : rest.head?.any (·.kind == .minus) = false := by
    cases rest with
    | nil => rfl
    | cons token rest => exact beq_eq_false_iff_ne.mpr (plain token rfl)
  rw [modifier,run_bind,run_get]
  by_cases hyphened : text = "non"
  · simp [word,Token.isWord,hyphened,follows,run_pure]
  · simp [word,Token.isWord,hyphened,free,run_pure]

theorem modifiers_onward {flags last : Modifiers} {front : List Token} (spelled : ModifierWords flags front last)
    (text : String) : ReflTransGen (Onward modifier) (flags,⟨p,front ++ word text :: rest⟩)
      (last,⟨p + front.length,word text :: rest⟩) := by
  induction spelled generalizing p with
  | nil => exact .refl
  | @word flags last spelling more known behind ih =>
    refine .head (onward (modifier_word flags known (behind.begins text rest)) (Nat.lt_succ_self _)) ?_
    have rest := @ih (p + 1)
    rwa [Nat.add_assoc,Nat.add_comm 1] at rest
  | @annotated flags last first parts arguments more named closed behind ih =>
    have lacks (kind : Kind) (symbol : kind ≠ .ident ∧ kind ≠ .atSign) : Lacks kind (more ++ word text :: rest) :=
      fun token begun => by
        rintro rfl
        exact (behind.begins text rest token begun).elim symbol.1 symbol.2
    have shape : .atSign :: (dotted first parts ++ (arguments ++ more)) ++ word text :: rest =
        Token.atSign :: (dotted first parts ++ (arguments ++ (more ++ word text :: rest))) := by simp
    have step := @modifier_annotated p _ flags first parts arguments named closed (lacks .dot (by decide))
      (lacks .parenOpen (by decide))
    rw [shape]
    refine .head (onward step ?_) ?_
    · simp only [List.length_append,List.length_cons]
      omega
    · have rest := @ih (p + (1 + (dotted first parts).length + arguments.length))
      refine cast (congrArg (ReflTransGen _ _) (arrive ?_)) rest
      simp only [List.length_append,List.length_cons]
      omega

/-- Modifiers are read up to the type behind them. -/
theorem modifiers_run {last : Modifiers} {front : List Token} (spelled : ModifierWords .none front last)
    {text : String} (free : text ∉ modifierWords) (plain : Lacks .minus rest) :
    modifiers ⟨p,front ++ word text :: rest⟩ = (last,⟨p + front.length,word text :: rest⟩) :=
  repeated_onward (modifiers_onward spelled text) (modifier_other last free plain)

end Parser

theorem balanced_dimensions (depth : Nat) {stops : List Kind} {rest : List Token} (behind : Balanced stops rest) :
    Balanced stops (dimensionTokens depth ++ rest) := by
  induction depth with
  | zero => exact behind
  | succ depth ih => exact @Balanced.indexed stops [] _ (.nil stops) ih

theorem Balanced.append {stops : List Kind} {front rest : List Token} (first : Balanced stops front)
    (behind : Balanced stops rest) : Balanced stops (front ++ rest) := by
  induction first with
  | nil => exact behind
  | token going single _ ih => exact .token going single (ih behind)
  | enclosed listed inside _ _ ih =>
    rw [List.cons_append,List.append_assoc,List.cons_append]
    exact .enclosed listed inside (ih behind)
  | indexed inside _ _ ih =>
    rw [List.cons_append,List.append_assoc,List.cons_append]
    exact .indexed inside (ih behind)

/-- The brackets behind a declared name are closed, and no parenthesis follows it directly. -/
theorem IsTail.closed {tail : List Token} (own : IsTail tail) : Balanced [.semicolon] tail ∧
    ∀ rest, Lacks .parenOpen rest → Lacks .parenOpen (tail ++ rest) := by
  obtain ⟨depth,value,rfl,value'⟩ := own
  constructor
  · refine balanced_dimensions depth ?_
    rcases value' with rfl | ⟨inner,rfl,balanced⟩
    · exact .nil _
    · exact .token (by decide) (by decide) balanced
  · intro rest lacks
    cases depth with
    | succ depth => exact .cons _ (by decide)
    | zero =>
      rcases value' with rfl | ⟨inner,rfl,_⟩
      · exact lacks
      · exact .cons _ (by decide)

theorem DeclaratorWords.closed {names : List String} {list : List Token} (spelled : DeclaratorWords names list) :
    Balanced [.semicolon] list := by
  have word (name : String) {behind : List Token} (balanced : Balanced [.semicolon] behind) :
      Balanced [.semicolon] (Java.word name :: behind) :=
    .token (show Kind.ident ∉ [Kind.semicolon] by decide) (show Kind.ident ∉ Token.bracketKinds by decide) balanced
  induction spelled with
  | last own => exact word _ own.closed.1
  | more own _ ih => exact word _ (own.closed.1.append (.token (by decide) (by decide) ih))

/-- Behind the first declared name all brackets are closed up to the semicolon. -/
theorem DeclaratorWords.first {names : List String} {list : List Token} (spelled : DeclaratorWords names list) :
    ∃ name rest behind, names = name :: rest ∧ list = word name :: behind ∧ Balanced [.semicolon] behind ∧
      ∀ rest, Lacks .parenOpen rest → Lacks .parenOpen (behind ++ rest) := by
  cases spelled with
  | last own => exact ⟨_,_,_,rfl,rfl,own.closed⟩
  | more own behind =>
    refine ⟨_,_,_,rfl,rfl,own.closed.1.append (.token (by decide) (by decide) behind.closed),fun rest _ => ?_⟩
    rw [List.append_assoc]
    exact own.closed.2 _ (.cons _ (by decide))

/-- Behind the first word of a type stand its arguments or a dot, if anything. -/
theorem TypeWords.second {words : List Token} {text : String} (spelled : TypeWords words text) :
    ∃ first more, words = word first :: more ∧ ∀ token ∈ more.head?, token.kind = .less ∨ token.kind = .dot := by
  induction spelled with
  | name text arguments closed =>
    refine ⟨text,arguments,rfl,fun token head => .inl ?_⟩
    cases arguments with
    | nil => cases head
    | cons opening inner =>
      cases head
      exact beq_iff_eq.mp ((Bool.and_eq_true _ _).mp closed).1
  | part outer text arguments closed ih =>
    obtain ⟨first,more,rfl,begins⟩ := ih
    refine ⟨first,_,rfl,fun token head => ?_⟩
    cases more with
    | nil =>
      cases head
      exact .inr rfl
    | cons next more => exact begins token head

namespace MemberLevel

variable {p : Nat} {inner : String → Parser (Option Member)}

/-- The reader of a field passes what stands between its name and the semicolon. -/
theorem field_run (start : Nat) (flags : Modifiers) (type : TypeRef) (name : Ident) {behind rest : List Token}
    (balanced : Balanced [.semicolon] behind) :
    field start flags type name ⟨p,behind ++ .semicolon :: rest⟩ =
      (.field ⟨flags,type,name,.upTo start (2 * (p + behind.length + 1))⟩,⟨p + behind.length + 1,rest⟩) := by
  rw [field,Parser.run_bind,Parser.skipStatement_balanced balanced,Parser.run_bind,Parser.run_discard,
    Parser.expect_seen Token.semicolon .semicolon rfl,Parser.run_bind,Parser.run_spanFrom,Parser.run_pure]

section Typed

variable {first text name : String} {more behind rest : List Token} {depth : Nat}

theorem begins_typed (typed : TypeWords (word first :: more) text) :
    ∀ token ∈ more.head?, token.kind = .less ∨ token.kind = .dot := by
  obtain ⟨_,_,same,begins⟩ := typed.second
  rwa [(List.cons.inj same).2]

/-- What can stand behind the first word of a type that a declared name follows. -/
theorem lacks_typed (typed : TypeWords (word first :: more) text) {kind : Kind}
    (other : kind ∉ [Kind.less,.dot,.bracketOpen,.ident]) :
    Lacks kind (more ++ (dimensionTokens depth ++ word name :: rest)) := by
  have begins := begins_typed typed
  simp only [List.mem_cons,List.not_mem_nil,or_false,not_or] at other
  cases more with
  | cons next more => exact .cons _ ((begins next rfl).elim (· ▸ Ne.symm other.1) (· ▸ Ne.symm other.2.1))
  | nil =>
    cases depth with
    | zero => exact .cons _ (Ne.symm other.2.2.2)
    | succ depth => exact .cons _ (Ne.symm other.2.2.1)

theorem seesMemberType_word (free : first ∉ typeWords) (tail : List Token) :
    seesMemberType ⟨p,word first :: tail⟩ = (first == "record" && (Cursor.mk (p + 1) tail).sees .ident &&
      ((Cursor.mk (p + 1) tail).skip 1).sees .parenOpen) := by
  simp only [typeWords,List.mem_cons,List.not_mem_nil,or_false,not_or] at free
  have kind : typeKind? ⟨p,word first :: tail⟩ =
      if first == "record" && (Cursor.mk (p + 1) tail).sees .ident then some (.recordType,1) else none := by
    simp [typeKind?,Cursor.sees,Cursor.seesWord,Token.isWord,word,Cursor.skip,free]
  have word : (Cursor.mk p (word first :: tail)).seesWord "record" = (first == "record") := rfl
  rw [seesMemberType,kind,word,show (Cursor.mk p (Java.word first :: tail)).skip 1 = ⟨p + 1,tail⟩ from rfl]
  cases first == "record" <;> cases (Cursor.mk (p + 1) tail).sees .ident <;> rfl

/-- The type of a field is not taken for a declaration of a type. -/
theorem seesMemberType_typed (typed : TypeWords (word first :: more) text) (free : first ∉ typeWords)
    (unopened : Lacks .parenOpen rest) :
    seesMemberType ⟨p,word first :: (more ++ (dimensionTokens depth ++ word name :: rest))⟩ = false := by
  have begins := begins_typed typed
  rw [seesMemberType_word free]
  cases more with
  | cons next more =>
    have other : next.kind ≠ .ident := by
      rcases begins next rfl with same | same <;> simp [same]
    have unnamed : (Cursor.mk (p + 1) (next :: more ++ (dimensionTokens depth ++ word name :: rest))).sees .ident = false :=
      Parser.sees_lacking (.cons _ other)
    rw [unnamed,Bool.and_false,Bool.false_and]
  | nil =>
    cases depth with
    | zero =>
      have closed : ((Cursor.mk (p + 1) (word name :: rest)).skip 1).sees .parenOpen = false :=
        @Parser.sees_lacking _ (p + 2) _ unopened
      exact (congrArg (_ && ·) closed).trans (Bool.and_false _)
    | succ depth => exact (congrArg (· && _) (Bool.and_false _)).trans (Bool.false_and _)

/-- Behind a type and a name a field is read, unless a parenthesis follows. -/
theorem otherwise_field (start : Nat) (flags : Modifiers) (owner : String)
    (typed : TypeWords (word first :: more) text) (unopened : Lacks .parenOpen rest) : ∃ typeSpan nameSpan,
      otherwise start flags owner ⟨p,word first :: (more ++ (dimensionTokens depth ++ word name :: rest))⟩ =
        (do return some (← field start flags ⟨text ++ String.join (List.replicate depth "[]"),typeSpan⟩
          ⟨name,nameSpan⟩)) ⟨p + (more.length + 2 * depth + 2),rest⟩ := by
  have named (kind : Kind) (other : kind ≠ .ident) : Lacks kind (word name :: rest) := .cons _ other.symm
  have type := @typeRef_deep p (word first :: more) (word name :: rest) text typed depth (named _ (by decide))
    (named _ (by decide)) (named _ (by decide))
  have unbound : Lacks .less (word first :: (more ++ (dimensionTokens depth ++ word name :: rest))) :=
    .cons _ (show Kind.ident ≠ .less by decide)
  have skipped : (Cursor.mk p (word first :: (more ++ (dimensionTokens depth ++ word name :: rest)))).skip 1 =
      ⟨p + 1,more ++ (dimensionTokens depth ++ word name :: rest)⟩ := rfl
  rw [otherwise,Parser.run_bind,Parser.skipNested_lacking unbound,Parser.run_bind,Parser.run_get]
  have called : (Cursor.mk (p + 1) (more ++ (dimensionTokens depth ++ word name :: rest))).sees .parenOpen = false :=
    Parser.sees_lacking (lacks_typed typed (by decide))
  simp only [skipped,called,Bool.and_false,Bool.false_and,Bool.false_eq_true,if_false]
  rw [List.cons_append] at type
  rw [Parser.run_bind,type]
  dsimp only
  rw [Parser.run_bind,Parser.expect_word,Parser.run_bind,Parser.run_sees,Parser.sees_lacking unopened]
  have place : p + ((word first :: more).length + 2 * depth) + 1 = p + (more.length + 2 * depth + 2) := by
    rw [List.length_cons]
    omega
  simp only [Bool.false_eq_true,if_false,place]
  exact ⟨_,_,rfl⟩

end Typed

/-- Of all the fields of a declaration the reader of members makes the first. -/
theorem member_fields {flags : Modifiers} {type name : String} {others : List String} {words rest : List Token}
    (spelled : FieldWords flags type (name :: others) words) (owner : String) : ∃ typeSpan nameSpan,
    member inner owner ⟨p,words ++ rest⟩ =
      (some (.field ⟨flags,⟨type,typeSpan⟩,⟨name,nameSpan⟩,.upTo (2 * p + 1) (2 * (p + words.length))⟩),
        ⟨p + words.length,rest⟩) := by
  obtain ⟨depth,modifiers,typed,free,declarators⟩ := spelled
  rename_i front head list text
  obtain ⟨_,_,behind,same,rfl,balanced,unopened⟩ := declarators.first
  obtain ⟨rfl,rfl⟩ := List.cons.inj same
  obtain ⟨first,more,rfl,_⟩ := typed.second
  have known : first ∉ Parser.modifierWords ∧ first ∉ typeWords := by
    have both : first ∉ Parser.modifierWords ++ typeWords := free (word first) rfl
    simpa only [List.mem_append,not_or] using both
  have shape : front ++ (word first :: more ++ (dimensionTokens depth ++ (word name :: behind ++ [.semicolon]))) ++ rest =
      front ++ word first :: (more ++ (dimensionTokens depth ++ word name :: (behind ++ .semicolon :: rest))) := by simp
  have next : Lacks .parenOpen (behind ++ .semicolon :: rest) := unopened _ (.cons _ (by decide))
  have going : (Cursor.mk p (front ++ word first ::
      (more ++ (dimensionTokens depth ++ word name :: (behind ++ .semicolon :: rest))))).atEnd = false := by
    simp [Cursor.atEnd]
  have moving : (Cursor.mk (p + front.length) (word first ::
      (more ++ (dimensionTokens depth ++ word name :: (behind ++ .semicolon :: rest))))).seesWord "static" = false := by
    refine beq_eq_false_iff_ne.mpr fun same => known.1 ?_
    rw [show first = "static" from same]
    decide
  have read := @member_run inner _ _ _ owner going
    (Parser.modifiers_run modifiers known.1 (lacks_typed typed (by decide))) moving rfl
  rw [seesMemberType_typed typed known.2 next] at read
  simp only [Bool.false_eq_true,if_false] at read
  obtain ⟨typeSpan,nameSpan,field⟩ := @otherwise_field (p + front.length) _ _ name _ _ depth (2 * p + 1) flags owner
    typed next
  have length : p + front.length + (more.length + 2 * depth + 2) + behind.length + 1 = p + (front ++
      (word first :: more ++ (dimensionTokens depth ++ (word name :: behind ++ [Token.semicolon])))).length := by
    simp only [List.length_append,List.length_cons,List.length_nil,length_dimensionTokens]
    omega
  refine ⟨typeSpan,nameSpan,?_⟩
  rw [shape,← length]
  refine (read.trans field).trans ?_
  rw [Parser.run_bind,field_run _ _ _ _ balanced,Parser.run_pure]

end MemberLevel

end Transplant.Java
