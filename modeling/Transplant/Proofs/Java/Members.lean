import Transplant.Java.Source
import Transplant.Proofs.Java.Linked

/-! The members of a type come one behind the other inside its body, and a method reaches over its
body, which was read from a brace on. Each type of a file is looked at by itself, with the members that
are no types. -/
namespace Transplant.Java

open Token (Kind)
open Reads

variable {tokens : List Token} {i j k : Nat}

/-- A method reaches over its body. -/
def Member.AroundBody (member : Member) : Prop :=
  ∀ decl, member = .method decl → ∀ b, decl.body = some b → decl.span.contains b.span = true

/-- A block with both its places, as it is read from a brace on. -/
def Block.IsRead (tokens : List Token) (b : Block) : Prop :=
  ∃ i j, j ≤ tokens.length ∧ i < j ∧ b.span = ⟨2 * i + 1,2 * j⟩ ∧ Block.Read tokens i b j

/-- A method reaches over its body, and that was read from a brace on, with its parts linked. -/
def Member.BodyRead (tokens : List Token) (member : Member) : Prop :=
  ∀ decl, member = .method decl → ∀ b, decl.body = some b →
    decl.span.contains b.span = true ∧ b.IsRead tokens ∧ b.Links tokens

theorem Member.BodyRead.around {member : Member} (read : member.BodyRead tokens) : member.AroundBody :=
  fun decl same b given => (read decl same b given).1

structure TypeDecl.Sits (tokens : List Token) (decl : TypeDecl) : Prop where
  own : Java.Sits tokens decl.spans (decl.members.flatMap Member.blocks)
  members : Covers tokens decl.bodySpan (decl.members.map Member.span)
  bodies : ∀ member ∈ decl.members, member.BodyRead tokens

/-- The member is what stands from token `i` to before token `j`. -/
structure Member.Read (tokens : List Token) (i : Nat) (member : Member) (j : Nat) : Prop where
  before : i < j
  span : member.span = ⟨2 * i + 1,2 * j⟩
  own : Sits tokens member.spans member.blocks
  body : member.BodyRead tokens
  types : ∀ decl ∈ member.types, decl.Sits tokens

/-- Members between two tokens. -/
structure Member.ReadAll (tokens : List Token) (list : List Member) (i j : Nat) : Prop where
  row : Row (list.map Member.span) i j
  own : Sits tokens (list.flatMap Member.spans) (list.flatMap Member.blocks)
  bodies : ∀ member ∈ list, member.BodyRead tokens
  types : ∀ decl ∈ Member.typesAll list, decl.Sits tokens

theorem Member.ReadAll.nil (i : Nat) : ReadAll tokens [] i i :=
  ⟨.nil (Nat.le_refl i),.nil,nofun,nofun⟩

theorem Member.ReadAll.cons {member : Member} {list : List Member} (first : member.Read tokens i k)
    (rest : ReadAll tokens list k j) : ReadAll tokens (member :: list) i j where
  row := .cons (Nat.le_refl i) first.before first.span rest.row
  own := first.own.append rest.own
  bodies := List.forall_mem_cons.mpr ⟨first.body,rest.bodies⟩
  types := List.forall_mem_append.mpr ⟨first.types,rest.types⟩

theorem Member.ReadAll.earlier {list : List Member} (read : ReadAll tokens list k j) (low : i ≤ k) :
    ReadAll tokens list i j := ⟨read.row.earlier low,read.own,read.bodies,read.types⟩

/-- What is said of a type is not changed by other modifiers and another span. -/
theorem TypeDecl.Sits.of_span {decl : TypeDecl} (sits : decl.Sits tokens) (modifiers : Modifiers)
    {span : Span} (fits : Fits tokens.length span) :
    TypeDecl.Sits tokens { decl with modifiers := modifiers, span := span } :=
  ⟨.cons fits ⟨fun span member => sits.own.spans span (List.mem_cons_of_mem _ member),sits.own.blocks⟩,
    sits.members,sits.bodies⟩

theorem TypeDecl.mem_types (decl : TypeDecl) : decl ∈ decl.types := by
  cases decl
  exact List.mem_cons_self

namespace Parser

/-- A parameter with the comma behind it. -/
def listedParam : Parser (Option Param) := do
  let param ← param
  discard (eat .comma)
  return param

theorem paramList_eq : paramList = (do
    discard (expect .parenOpen)
    let params ← gathered [.parenClose] listedParam
    discard (expect .parenClose)
    return params) := rfl

end Parser

namespace Reads

theorem modifier (flags : Modifiers) : Steps tokens (Parser.modifier flags) i := by
  refine assume fun inside => get ?_
  split
  · exact pure ⟨Nat.le_refl i,nofun⟩
  · rename_i token rest parted
    have here := (List.getElem?_eq_some_iff.mp (Cursor.on_rest_one parted)).1
    refine ite (fun sign => ?_) fun _ => ite (fun _ => ite (fun _ => ?_) fun _ => ?_) fun _ =>
      ite (fun _ => ?_) fun _ => ?_
    · have ahead : Reads tokens Parser.seesAnnotationType i fun _ j => j = i := by
        refine get ?_
        split
        · exact pure rfl
        · exact pure rfl
      refine bind ahead fun _ k same _ => ?_
      subst same
      refine ite (fun _ => pure ⟨Nat.le_refl k,nofun⟩) fun _ => ?_
      refine bind (skipAnnotated ⟨token,Cursor.on_rest_one parted,sign⟩) fun _ j on _ => ?_
      exact pure ⟨Nat.le_of_lt on,fun _ _ => on⟩
    · exact bind (skipBy fun _ => 3) fun _ j on _ => pure ⟨by omega,fun _ _ => by omega⟩
    · exact pure ⟨Nat.le_refl i,nofun⟩
    · exact pure ⟨Nat.le_refl i,nofun⟩
    · exact bind (skipBy fun _ => 1) fun _ j on _ => pure ⟨by omega,fun _ _ => by omega⟩

theorem modifiers : Reads tokens Parser.modifiers i fun _ j => i ≤ j :=
  repeated (fun _ j => i ≤ j) _ (Nat.le_refl i) fun flags _ low =>
    (modifier flags).mono fun _ _ on _ => Nat.le_trans low on.1

theorem varargs_fits (type : TypeRef) (typed : Fits tokens.length type.span) :
    Reads tokens (Parser.varargs type) i fun type j => i ≤ j ∧ Fits tokens.length type.span := by
  refine assume fun inside => get ?_
  split
  · refine ite (fun _ => ?_) fun _ => pure ⟨Nat.le_refl i,typed⟩
    refine bind (skipBy fun _ => 3) fun _ _ on bound => spanFrom (pure ⟨by omega,?_⟩)
    exact .upTo typed.start_known (by omega)
  · exact pure ⟨Nat.le_refl i,typed⟩

theorem param_fits : Reads tokens Parser.param i fun found j =>
    i ≤ j ∧ ∀ param, found = some param → param.Fit tokens := by
  refine bind skipVariableModifiers fun _ k passed _ => ?_
  refine bind (typeRef.and typeRef_fits) fun found l ⟨place,given⟩ _ => ?_
  have low := passed.le
  rcases place with ⟨rfl,_,rfl⟩ | ⟨type,rfl,_,order,_⟩
  · exact pure ⟨low,nofun⟩
  · refine bind (varargs_fits type (given type rfl)) fun type m ⟨first,typed⟩ _ => ?_
    refine bind (expectOn.and expect_fits) fun name n ⟨second,named⟩ _ => ?_
    refine bind dimensions.discard fun _ j ⟨_,depth⟩ _ => pure ⟨?_,fun _ same => ?_⟩
    · have := depth.le
      omega
    · exact Option.some.inj same ▸ Param.fit_of_parts typed named

theorem listedParam_fits : Reads tokens Parser.listedParam i fun found j =>
    i ≤ j ∧ ∀ param, found = some param → param.Fit tokens := by
  refine bind param_fits fun found m ⟨first,given⟩ _ => bind eaten.discard fun _ n ⟨_,comma⟩ _ => ?_
  have on : i ≤ n := by rcases comma with ⟨_,_,rfl⟩ | ⟨_,_,rfl⟩ <;> omega
  exact pure ⟨on,given⟩

theorem paramList_fits : Reads tokens Parser.paramList i fun params j =>
    i ≤ j ∧ AllFit tokens.length (params.flatMap Param.spans) := by
  rw [Parser.paramList_eq]
  refine bind expectOn.discard fun _ k ⟨_,low⟩ _ => ?_
  refine bind (gathered (fun list k j => k ≤ j ∧ AllFit tokens.length (list.flatMap Param.spans))
    (fun k => ⟨Nat.le_refl k,.nil⟩) fun l _ _ _ => ?_) fun params l ⟨inside,read⟩ _ => ?_
  · refine listedParam_fits.mono fun found n ⟨on,given⟩ _ => ⟨on,fun list j rest => ⟨?_,?_⟩⟩
    · have further : l ≤ if n = l then l + 1 else n := by split <;> omega
      exact Nat.le_trans further rest.1
    · cases found with
      | none => exact rest.2
      | some param => exact AllFit.append (given param rfl) rest.2
  · exact bind expectOn.discard fun _ j ⟨_,high⟩ _ => pure ⟨by omega,read⟩

end Reads

namespace MemberLevel

theorem enumConstant_reads : Steps tokens enumConstant i := by
  refine eat (fun _ => pure ⟨Nat.le_succ i,nofun⟩) fun _ => get (ite (fun _ => pure ⟨Nat.le_refl i,nofun⟩) fun going => ?_)
  simp only [Bool.or_eq_true,not_or,Cursor.on_atEnd_iff,Nat.not_le] at going
  refine bind modifiers.discard fun _ k ⟨_,low⟩ _ => eat (fun _ => ?_) fun _ => ?_
  · refine bind (skipNested _ _) fun _ l first _ => bind (skipNested _ _) fun _ m second _ => ?_
    refine bind eaten.discard fun _ j ⟨_,comma⟩ _ => ?_
    have before : i < j := by rcases comma with ⟨_,_,rfl⟩ | ⟨_,_,rfl⟩ <;> omega
    exact pure ⟨Nat.le_of_lt before,fun _ _ => before⟩
  · exact assume fun _ => bind (skipBy fun _ => 1) fun _ j on _ => pure ⟨by omega,fun _ _ => by omega⟩

theorem skipThrows_reads : Reads tokens skipThrows i fun _ j => i ≤ j :=
  eatWord (fun _ => (skipWhile fun kind => kind != .braceOpen && kind != .semicolon).mono
    fun _ _ on _ => by omega) fun _ => pure (Nat.le_refl i)

/-- What a reader of members gives. -/
def Given (tokens : List Token) (i : Nat) (found : Option Member) (j : Nat) : Prop :=
  i ≤ j ∧ ∀ member, found = some member → member.Read tokens i j

theorem initializer_fits (start : Nat) (isStatic : Bool) (begun : start ≤ i)
    (moved : start < i ∨ Seen tokens i .braceOpen) :
    Reads tokens (initializer (2 * start + 1) isStatic) i (Member.Read tokens start) := by
  refine bind (Parser.block_reads.and Parser.block_fits) fun body j ⟨read,fit,stop⟩ _ => pure ?_
  have on := (read.walked .start).le
  have before : start < j := by
    rcases moved with first | brace
    · omega
    · have := (read.braced brace).1
      omega
  refine ⟨before,?_,.cons (.upTo ?_ fit.span.known) fit,(fun _ same => nomatch same),nofun⟩
  · rw [Member.span,stop]
    exact Span.upTo_eq (by omega)
  · omega

theorem constructor_fits (start : Nat) (flags : Modifiers) (begun : start ≤ i) (named : Seen tokens i .ident) :
    Reads tokens (constructor (2 * start + 1) flags) i (Member.Read tokens start) := by
  refine bind (expect.and expect_fits) fun name k ⟨known,placed⟩ _ => ?_
  have moved : k = i + 1 := by
    rcases known with ⟨_,_,_,_,after⟩ | ⟨unseen,_⟩
    · exact after
    · exact absurd named unseen
  refine bind paramList_fits fun params l ⟨low,all⟩ _ => bind skipThrows_reads fun _ m high _ => ?_
  refine bind (Parser.block_reads.and Parser.block_fits) fun body j ⟨read,fit,stop⟩ _ => pure ?_
  have on := (read.walked .start).le
  refine ⟨by omega,?_,.cons (.upTo ?_ fit.span.known) (.cons placed (all.before fit)),
    (fun _ same => nomatch same),nofun⟩
  · rw [Member.span,stop]
    exact Span.upTo_eq (by omega)
  · omega

theorem method_fits (start : Nat) (flags : Modifiers) {type : TypeRef} {name : Ident} (begun : start < i)
    (typed : Fits tokens.length type.span) (named : Fits tokens.length name.span) :
    Reads tokens (method (2 * start + 1) flags type name) i (Member.Read tokens start) := by
  refine bind paramList_fits fun params k ⟨low,all⟩ _ => bind dimensions.discard fun _ l ⟨_,depth⟩ _ => ?_
  have middle := depth.le
  refine bind skipThrows_reads fun _ m high _ => sees (fun brace => ?_) fun _ => ?_
  · refine bind ((Parser.block_reads.and Parser.block_fits).and Parser.block_links)
      fun body j ⟨⟨read,fit,stop⟩,linked⟩ bound => pure ?_
    obtain ⟨order,span⟩ := read.braced brace
    have whole : Span.upTo (2 * start + 1) body.span.stop = ⟨2 * start + 1,2 * j⟩ := by
      rw [stop]
      exact Span.upTo_eq (by omega)
    refine ⟨by omega,whole,?_,?_,nofun⟩
    · exact .cons (.upTo (by omega) fit.span.known) (.cons typed (.cons named (all.before fit)))
    · intro decl same b given
      cases same
      cases given
      refine ⟨?_,⟨m,j,bound,order,span,read⟩,linked⟩
      rw [whole,Span.contains_iff,span]
      exact ⟨by simp only; omega,Nat.le_refl _⟩
  · refine bind (skipOutside _ _) fun _ n ⟨on,_⟩ _ => bind expectOn.discard fun _ j ⟨_,last⟩ bound => ?_
    refine spanFrom (pure ⟨by omega,Span.upTo_eq (by omega),?_,?_,nofun⟩)
    · exact .cons (.upTo (by omega) (by omega)) (.cons typed (.cons named (all.before .nil)))
    · intro decl same b given
      cases same
      cases given

theorem field_fits (start : Nat) (flags : Modifiers) {type : TypeRef} {name : Ident} (begun : start < i)
    (typed : Fits tokens.length type.span) (named : Fits tokens.length name.span) :
    Reads tokens (field (2 * start + 1) flags type name) i (Member.Read tokens start) := by
  refine bind (skipOutside _ _) fun _ k ⟨on,_⟩ _ => bind expectOn.discard fun _ j ⟨_,last⟩ bound => ?_
  refine spanFrom (pure ⟨by omega,Span.upTo_eq (by omega),?_,(fun _ same => nomatch same),nofun⟩)
  exact .cons (.upTo (by omega) (by omega)) (.cons typed (.cons named .nil))

/-- The words that begin a type are there. -/
theorem typeKind?_some {kind : TypeKind} {words : Nat}
    (known : typeKind? (.on tokens i) = some (kind,words)) : i < tokens.length ∧ 0 < words := by
  have word {text : String} (seen : (Cursor.on tokens i).seesWord text = true) : i < tokens.length :=
    (Cursor.on_seesWord_iff.mp seen).ident.lt
  simp only [typeKind?] at known
  split at known
  · rename_i sign
    cases known
    simp only [Bool.and_eq_true] at sign
    exact ⟨(Cursor.on_sees_iff.mp sign.1).lt,by omega⟩
  · split at known
    · rename_i seen
      cases known
      exact ⟨word seen,by omega⟩
    · split at known
      · rename_i seen
        cases known
        exact ⟨word seen,by omega⟩
      · split at known
        · rename_i seen
          cases known
          exact ⟨word seen,by omega⟩
        · split at known
          · rename_i seen
            cases known
            simp only [Bool.and_eq_true] at seen
            exact ⟨word seen.1,by omega⟩
          · cases known

variable {inner : String → Parser (Option Member)}

theorem typeDecl_fits (given : ∀ owner k, Reads tokens (inner owner) k (Given tokens k)) :
    Reads tokens (typeDecl inner) i fun found j => i ≤ j ∧ ∀ decl, found = some decl →
      i < j ∧ decl.span = ⟨2 * i + 1,2 * j⟩ ∧ ∀ type ∈ decl.types, type.Sits tokens := by
  refine assume fun inside => get (bind modifiers fun flags k low _ => get ?_)
  split
  · exact set inside (pure ⟨Nat.le_refl i,nofun⟩)
  · rename_i kind words known
    obtain ⟨here,worded⟩ := typeKind?_some known
    refine bind (skipBy fun _ => words) fun _ l first _ => ?_
    refine bind (expectOn.and expect_fits) fun name m ⟨second,named⟩ _ => ?_
    refine bind (skipWhile _) fun _ n ⟨third,_⟩ _ => ?_
    refine bind (expect.and expect_fits) fun brace a ⟨known,opening⟩ _ => ?_
    have opened : n ≤ a ∧ brace.span.start ≤ 2 * a := by
      rcases known with ⟨_,_,_,place,rfl⟩ | ⟨_,place,rfl⟩
      · exact ⟨Nat.le_succ n,place ▸ show 2 * n + 1 ≤ 2 * (n + 1) by omega⟩
      · exact ⟨Nat.le_refl a,place ▸ Nat.le_refl (2 * a)⟩
    -- The members, which begin at the brace or behind the constants of an enumeration.
    have finish (b : Nat) (before : a ≤ b) : Reads tokens (do
        let members ← Parser.gathered [.braceClose] (inner name.text)
        discard (Parser.expect .braceClose)
        let body ← Parser.spanFrom brace.span.start
        return some ⟨kind,flags,name,.upTo (Cursor.on tokens i).nextStart body.stop,body,members⟩) b
        fun (found : Option TypeDecl) j => i ≤ j ∧ ∀ decl, found = some decl →
          i < j ∧ decl.span = ⟨2 * i + 1,2 * j⟩ ∧ ∀ type ∈ decl.types, type.Sits tokens := by
      refine bind (gathered (Member.ReadAll tokens) Member.ReadAll.nil fun c _ _ _ => (given _ c).mono
        fun found d one _ => ?_) fun members c all _ => ?_
      · obtain ⟨on,read⟩ := one
        refine ⟨on,fun list j rest => ?_⟩
        cases found with
        | none => exact rest.earlier (by split <;> omega)
        | some member =>
          have first := read member rfl
          rw [if_neg (by have := first.before; omega)] at rest
          exact .cons first rest
      · have far := all.row.le
        refine bind expectOn.discard fun _ j ⟨_,last⟩ bound => spanFrom (pure ⟨by omega,fun _ same => ?_⟩)
        cases same
        have stop : (Span.upTo brace.span.start (2 * j)).stop = 2 * j := by
          rw [Span.upTo_eq (by omega)]
        have body : Covers tokens (.upTo brace.span.start (2 * j)) (members.map Member.span) :=
          ⟨.upTo opening.start_known (by omega),b,c,by omega,Nat.le_trans opened.2 (by omega),by omega,all.row⟩
        have start : (Cursor.on tokens i).nextStart ≤ 2 * tokens.length + 1 := by
          rw [Cursor.on_nextStart]
          omega
        refine ⟨by omega,?_,List.forall_mem_cons.mpr ⟨⟨?_,body,all.bodies⟩,all.types⟩⟩
        · rw [stop]
          exact Span.upTo_eq (show 2 * i + 1 ≤ 2 * j by omega)
        · exact .cons (.upTo start (by omega)) (.cons body.fits (.cons named all.own))
    refine ite (fun _ => ?_) fun _ => finish a (Nat.le_refl a)
    refine bind (repeated (fun _ j => a ≤ j) _ (Nat.le_refl a) fun _ _ low =>
      enumConstant_reads.mono fun _ _ on _ => Nat.le_trans low on.1) fun _ b low _ => finish b low

theorem member_fits (given : ∀ owner k, Reads tokens (inner owner) k (Given tokens k)) (owner : String) :
    Reads tokens (member inner owner) i (Given tokens i) := by
  have found {read : Parser Member} (k : Nat) (made : Reads tokens read k (Member.Read tokens i)) :
      Reads tokens (do return some (← read)) k (Given tokens i) :=
    bind made fun member _ read _ =>
      pure ⟨Nat.le_of_lt read.before,fun _ same => Option.some.inj same ▸ read⟩
  refine assume fun inside => get (ite (fun _ => pure ⟨Nat.le_refl i,nofun⟩) fun _ => ?_)
  refine bind modifiers fun flags k low _ => get (ite (fun static => ?_) fun _ => ?_)
  · simp only [Bool.and_eq_true,Cursor.on_seesWord_iff] at static
    exact skip 1 static.1.ident.lt (found _ (initializer_fits i true (by omega) (.inl (by omega))))
  refine ite (fun brace => ?_) fun _ => ?_
  · exact found k (initializer_fits i false low (.inr (Cursor.on_sees_iff.mp brace)))
  refine ite (fun _ => ?_) fun _ => ?_
  · refine bind (typeDecl_fits given) fun decl? j ⟨on,read⟩ bound => ?_
    cases decl? with
    | none => exact pure ⟨Nat.le_trans low on,nofun⟩
    | some decl =>
      obtain ⟨before,span,types⟩ := read decl rfl
      have whole : Span.upTo (2 * i + 1) decl.span.stop = ⟨2 * i + 1,2 * j⟩ := by
        rw [span]
        exact Span.upTo_eq (show 2 * i + 1 ≤ 2 * j by omega)
      refine pure ⟨Nat.le_trans low on,fun _ same => ?_⟩
      cases same
      refine ⟨by omega,whole,.nil,(fun _ same => nomatch same),?_⟩
      -- The modifiers were read before the type, so it begins with them.
      have own := (types decl decl.mem_types).of_span flags (.upTo (show 2 * i + 1 ≤ _ by omega)
        (show decl.span.stop ≤ _ by rw [span]; exact show 2 * j ≤ _ by omega))
      cases decl
      exact List.forall_mem_cons.mpr ⟨own,fun type member => types type (List.mem_cons_of_mem _ member)⟩
  · refine bind (skipNested _ _) fun _ l on _ => get (ite (fun named => ?_) fun _ => ?_)
    · simp only [Bool.and_eq_true,Cursor.on_sees_iff] at named
      exact found l (constructor_fits i flags (by omega) named.1.1)
    · refine bind (typeRef.and typeRef_fits) fun type? m ⟨place,typed⟩ _ => ?_
      rcases place with ⟨rfl,_,rfl⟩ | ⟨type,rfl,_,order,_⟩
      · exact pure ⟨Nat.le_trans low on,nofun⟩
      · refine bind (expectOn.and expect_fits) fun name n ⟨after,named⟩ _ => ?_
        have far : i < n := by omega
        exact sees (fun _ => found n (method_fits i flags far (typed type rfl) named)) fun _ =>
          found n (field_fits i flags far (typed type rfl) named)

theorem reader_fits (depth : Nat) (owner : String) : Reads tokens (reader depth owner) i (Given tokens i) := by
  induction depth generalizing i owner with
  | zero => exact pure ⟨Nat.le_refl i,nofun⟩
  | succ depth ih => exact member_fits (fun owner _ => ih owner) owner

end MemberLevel

namespace Reads

theorem typeDecl_fits : Reads tokens Parser.typeDecl i fun found j => i ≤ j ∧ ∀ decl, found = some decl →
    i < j ∧ decl.span = ⟨2 * i + 1,2 * j⟩ ∧ ∀ type ∈ decl.types, type.Sits tokens :=
  MemberLevel.typeDecl_fits fun owner _ => bounded fun turns _ => MemberLevel.reader_fits turns owner

theorem packageDecl_fits : Reads tokens Parser.packageDecl i fun found _ =>
    AllFit tokens.length (found.toList.map (·.span)) := by
  refine assume fun inside => nextStart (eatWord (fun _ => ?_) fun _ => pure .nil)
  refine bind qualifiedName fun _ k _ _ => bind expectOn.discard fun _ j _ bound => ?_
  exact spanFrom (pure (.one (.upTo (show 2 * i + 1 ≤ _ by omega) (by omega))))

theorem importPart (path : List String × Bool) : Steps tokens (Parser.importPart path) i := by
  refine ite (fun _ => pure ⟨Nat.le_refl i,nofun⟩) fun _ => eat (fun _ => ?_) fun _ => pure ⟨Nat.le_refl i,nofun⟩
  refine eat (fun _ => pure ⟨by omega,fun _ _ => by omega⟩) fun _ => ?_
  exact bind expectOn fun _ _ on _ => pure ⟨by omega,fun _ _ => by omega⟩

theorem importDecl_fits : Reads tokens Parser.importDecl i fun found j =>
    i ≤ j ∧ (found = none → j = i) ∧ ∀ decl, found = some decl → Fits tokens.length decl.span := by
  refine assume fun inside => nextStart (eatWord (fun _ => ?_) fun _ => pure ⟨Nat.le_refl i,fun _ => rfl,nofun⟩)
  refine bind eatenWord fun _ k static _ => bind expectOn fun _ l first _ => ?_
  refine bind (repeated (fun _ j => l ≤ j) _ (Nat.le_refl l) fun path _ low =>
    (importPart path).mono fun _ _ on _ => Nat.le_trans low on.1) fun _ m second _ => ?_
  refine bind expectOn.discard fun _ j ⟨_,last⟩ bound => spanFrom (pure ⟨?_,nofun,fun _ same => ?_⟩)
  · rcases static with ⟨_,_,rfl⟩ | ⟨_,_,rfl⟩ <;> omega
  · exact Option.some.inj same ▸ .upTo (show 2 * i + 1 ≤ _ by omega) (by omega)

end Reads

structure CompilationUnit.Sits (tokens : List Token) (file : CompilationUnit) : Prop where
  spans : AllFit tokens.length file.spans
  types : ∀ type ∈ file.allTypes, type.Sits tokens

theorem Reads.compilationUnit_fits : Reads tokens Parser.compilationUnit i fun file _ => file.Sits tokens := by
  refine bind packageDecl_fits fun package k first _ => ?_
  refine bind (many (fun imports _ _ => AllFit tokens.length (imports.map ImportDecl.span)) (fun _ => .nil)
    fun l _ => importDecl_fits.mono fun found m ⟨on,ended,given⟩ _ =>
      ⟨on,ended,?_⟩) fun imports l second _ => ?_
  · rintro decl rfl rest _ others
    exact .cons (given decl rfl) others
  refine bind (gathered (fun types _ _ => ∀ type ∈ types.flatMap TypeDecl.types, type.Sits tokens)
    (fun _ => nofun) fun m _ _ _ => Reads.typeDecl_fits.mono fun found n given _ => ?_)
    fun types m third bound => nextStart (pure ⟨?_,third⟩)
  · obtain ⟨on,read⟩ := given
    refine ⟨on,fun list _ rest => ?_⟩
    cases found with
    | none => exact rest
    | some decl => exact List.forall_mem_append.mpr ⟨(read decl rfl).2.2,rest⟩
  · refine .cons ⟨Nat.zero_le _,show 2 * m + 1 ≤ _ by omega⟩ (first.append (second.append ?_))
    intro span member
    obtain ⟨type,inside,own⟩ := List.mem_flatMap.mp member
    exact (third type inside).own.spans span own

end Transplant.Java
