import Transplant.Proofs.Java.Behind
import Transplant.Proofs.Java.Running

/-! Types among the members of a type. They are read as types of a file are, unless a record's name has
something else than the parenthesis of its parameters behind it. -/
namespace Transplant.Java

open Token (Kind)

variable {tokens : List Token} {i j k : Nat}

/-- Where one modifier is missing, every reader of modifiers stops. -/
theorem modifier_none {flags : Modifiers} {cursor : Cursor} (none : (Parser.modifier flags cursor).1 = none)
    (other : Modifiers) : Parser.modifier other cursor = (.none,cursor) := by
  obtain ⟨passed,rest⟩ := cursor
  cases rest with
  | nil => rfl
  | cons token rest =>
    have looked : ∃ b, Parser.seesAnnotationType ⟨passed,token :: rest⟩ = (b,⟨passed,token :: rest⟩) := by
      cases rest <;> exact ⟨_,rfl⟩
    obtain ⟨b,looked⟩ := looked
    simp only [Parser.modifier,Parser.run_bind,Parser.run_get] at none ⊢
    -- Whether a modifier is missing does not depend on the flags.
    split at none
    · rename_i sign
      simp only [sign,if_true,Parser.run_bind,looked] at none ⊢
      cases b with
      | true => rfl
      | false => cases none
    · rename_i sign
      rw [if_neg sign]
      split at none
      · rename_i hyphened
        rw [if_pos hyphened]
        split at none
        · cases none
        · rename_i other
          rw [if_neg other]
          rfl
      · rename_i plain
        rw [if_neg plain]
        split at none
        · rename_i other
          rw [if_pos other]
          rfl
        · cases none

theorem modifier_stops (flags : Modifiers) : Reads tokens (Parser.modifier flags) i fun found j =>
    found = none → ∀ other, Parser.modifier other (.on tokens j) = (none,.on tokens j) := by
  intro inside
  obtain ⟨found,j,ran,bound,_⟩ := Reads.modifier flags inside
  refine ⟨found,j,ran,bound,fun same other => ?_⟩
  have none : (Parser.modifier flags (.on tokens i)).1 = none := by rw [ran,same]
  have stayed := modifier_none none flags
  rw [ran,same] at stayed
  rw [show Cursor.on tokens j = .on tokens i from (Prod.mk.inj stayed).2]
  exact modifier_none none other

/-- Behind modifiers there are no more of them. -/
theorem modifiers_again : Reads tokens Parser.modifiers i fun _ j =>
    Parser.modifiers (.on tokens j) = (Modifiers.none,.on tokens j) := by
  refine .assume fun inside => (Looped.modifiers.reads i).mono fun flags j runs _ => ?_
  have stops : ∀ other, Parser.modifier other (.on tokens j) = (none,.on tokens j) := by
    refine @Loop.Runs.leave _ _ (fun _ j => ∀ other, Parser.modifier other (.on tokens j) = (none,.on tokens j))
      (fun held k => .bind (modifier_stops held) fun found l given _ => ?_) _ _ _ _ runs inside
    cases found with
    | some next => exact .pure nofun
    | none => exact .pure fun _ _ => given rfl
  exact @Parser.repeated_onward _ _ (Modifiers.none,.on tokens j) _ .refl (stops _)

def Member.isType : Member → Bool
  | .type _ => true
  | _ => false

namespace MemberLevel

variable {inner : String → Parser (Option Member)}

/-- A type behind the words that say of which kind it is: its name, and its body with the members. -/
def declared (inner : String → Parser (Option Member)) (kind : TypeKind) (words : Nat) :
    Parser (Ident × Span × List Member) := do
  Parser.skip words
  let name ← Parser.expect .ident
  Parser.skipWhile (· != .braceOpen)
  let brace ← Parser.expect .braceOpen
  if kind = .enumType then Parser.repeated (fun _ => enumConstant) ()
  let members ← Parser.gathered [.braceClose] (inner name.text)
  discard (Parser.expect .braceClose)
  let body ← Parser.spanFrom brace.span.start
  return (name,body,members)

theorem typeDecl_eq : typeDecl inner = (do
    let before ← get
    let flags ← Parser.modifiers
    match typeKind? (← get) with
    | none =>
      set before
      return none
    | some (kind,words) =>
      let (name,body,members) ← declared inner kind words
      return some ⟨kind,flags,name,.upTo before.nextStart body.stop,body,members⟩) := by
  refine bind_congr fun before => bind_congr fun flags => bind_congr fun cursor => ?_
  cases typeKind? cursor with
  | none => rfl
  | some given =>
    obtain ⟨kind,words⟩ := given
    by_cases constants : kind = .enumType <;> simp [declared,constants]

/-- The type that a declaration gives, between the modifiers and the end of its body. -/
def declaredType (kind : TypeKind) (flags : Modifiers) (start : Nat) (given : Ident × Span × List Member) : TypeDecl :=
  ⟨kind,flags,given.1,.upTo start given.2.1.stop,given.2.1,given.2.2⟩

theorem typeDecl_run {flags : Modifiers} (front : Parser.modifiers (.on tokens i) = (flags,.on tokens k)) :
    typeDecl inner (.on tokens i) = match typeKind? (.on tokens k) with
      | none => (none,.on tokens i)
      | some (kind,words) =>
        (some (declaredType kind flags (2 * i + 1) (declared inner kind words (.on tokens k)).1),
          (declared inner kind words (.on tokens k)).2) := by
  rw [typeDecl_eq,Parser.run_bind,Parser.run_get,Parser.run_bind,front,Parser.run_bind,Parser.run_get]
  dsimp only
  cases typeKind? (.on tokens k) <;> rfl

theorem declared_name (kind : TypeKind) (words : Nat) (cursor : Cursor) :
    (declared inner kind words cursor).1.1 = (Cursor.expect .ident (cursor.skip words)).1 := by
  by_cases constants : kind = .enumType <;> simp only [declared,constants,if_true,if_false] <;> rfl

/-- A record has the parenthesis of its parameters directly behind its name. -/
def Headed (tokens : List Token) (decl : TypeDecl) : Prop := decl.kind = .recordType →
  ∀ i, decl.name.span = ⟨2 * i + 1,2 * i + 2⟩ → Seen tokens (i + 1) .parenOpen

/-- Where a type begins behind its modifiers, nothing else does that a member can begin with. -/
theorem begins_of_typeKind? {cursor : Cursor} {kind : TypeKind} {words : Nat}
    (known : typeKind? cursor = some (kind,words)) :
    cursor.seesWord "static" = false ∧ cursor.sees .braceOpen = false ∧
      (cursor.seesWord "record" = true ↔ kind = .recordType) ∧
      (kind = .recordType → words = 1 ∧ (cursor.skip 1).sees .ident = true) := by
  obtain ⟨passed,rest⟩ := cursor
  cases rest with
  | nil => cases known
  | cons token rest =>
    simp only [typeKind?,Cursor.seesWord,Cursor.sees,Token.isWord] at known ⊢
    by_cases word : token.kind = .ident
    · simp only [word,beq_self_eq_true,Bool.true_and] at known ⊢
      grind
    · grind

/-- A record has a name. -/
theorem record_named {words : Nat} (known : typeKind? (.on tokens k) = some (.recordType,words)) :
    words = 1 ∧ Seen tokens (k + 1) .ident ∧
      (declared inner .recordType words (.on tokens k)).1.1.span = ⟨2 * (k + 1) + 1,2 * (k + 1) + 2⟩ := by
  obtain ⟨_,_,_,single⟩ := begins_of_typeKind? known
  obtain ⟨rfl,named⟩ := single rfl
  have first : k + 1 ≤ tokens.length := (typeKind?_some known).1
  rw [Cursor.on_skip 1 first,Cursor.on_sees_iff] at named
  obtain ⟨name,_,ran,_,given⟩ := (Reads.expect : Reads tokens (Parser.expect .ident) (k + 1) _) first
  refine ⟨rfl,named,?_⟩
  rw [declared_name,Cursor.on_skip 1 first,show Cursor.expect .ident (.on tokens (k + 1)) = _ from ran]
  rcases given with ⟨_,_,_,rfl,_⟩ | ⟨unseen,_⟩
  · rfl
  · exact absurd named unseen

/-- Among members a type is seen that is not a record without its parenthesis. -/
theorem seesMemberType_iff {kind : TypeKind} {words start : Nat} {flags : Modifiers}
    (known : typeKind? (.on tokens k) = some (kind,words)) :
    seesMemberType (.on tokens k) = true ↔
      Headed tokens (declaredType kind flags start (declared inner kind words (.on tokens k)).1) := by
  obtain ⟨_,_,recorded,_⟩ := begins_of_typeKind? known
  by_cases record : kind = .recordType
  · subst record
    obtain ⟨rfl,named,place⟩ := @record_named tokens k inner words known
    have sees : seesMemberType (.on tokens k) = true ↔ Seen tokens (k + 1 + 1) .parenOpen := by
      rw [seesMemberType,known,recorded.mpr rfl,Cursor.on_skip 1 (typeKind?_some known).1,
        Cursor.on_skip 1 named.lt,← Cursor.on_sees_iff]
      rfl
    rw [sees]
    refine ⟨fun seen _ i span => ?_,fun headed => headed rfl _ place⟩
    have same : 2 * (k + 1) + 1 = 2 * i + 1 := congrArg Span.start (place.symm.trans span)
    rwa [show i = k + 1 by omega]
  · have other : (Cursor.on tokens k).seesWord "record" = false := Bool.eq_false_iff.mpr (mt recorded.mp record)
    refine ⟨fun _ same => absurd same record,fun _ => ?_⟩
    rw [seesMemberType,known,other]
    rfl

/-- A record that was read has its name in one token. -/
theorem typeDecl_record {decl : TypeDecl} {next : Cursor}
    (read : Parser.typeDecl (.on tokens i) = (some decl,next)) (inside : i ≤ tokens.length)
    (record : decl.kind = .recordType) : ∃ n, Seen tokens n .ident ∧ decl.name.span = ⟨2 * n + 1,2 * n + 2⟩ := by
  obtain ⟨flags,k,front,_⟩ := Reads.modifiers inside
  have whole := @typeDecl_run tokens i k Parser.member _ front
  rw [show typeDecl Parser.member (.on tokens i) = _ from read] at whole
  cases known : typeKind? (.on tokens k) with
  | none =>
    rw [known] at whole
    cases whole
  | some found =>
    obtain ⟨kind,words⟩ := found
    rw [known] at whole
    cases Option.some.inj (Prod.mk.inj whole).1
    cases record
    obtain ⟨rfl,named,place⟩ := @record_named tokens k Parser.member words known
    exact ⟨k + 1,named,place⟩

/-- Wherever the reader begins, what it gives is such. -/
def Gives {α : Type} (post : α → Prop) (read : Parser α) : Prop := ∀ cursor, post (read cursor).1

namespace Gives

variable {α β : Type} {post : β → Prop} {read : Parser α} {next : α → Parser β}

theorem bind (each : ∀ a, Gives post (next a)) : Gives post (read >>= next) :=
  fun cursor => each (read cursor).1 (read cursor).2

theorem follow {mid : α → Prop} (first : Gives mid read) (each : ∀ a, mid a → Gives post (next a)) :
    Gives post (read >>= next) := fun cursor => each (read cursor).1 (first cursor) (read cursor).2

theorem pure {b : β} (given : post b) : Gives post (Pure.pure b) := fun _ => given

theorem ite {p : Prop} [Decidable p] {first second : Parser β} (yes : Gives post first) (no : Gives post second) :
    Gives post (if p then first else second) := by
  split
  · exact yes
  · exact no

end Gives

theorem constructor_gives (start : Nat) (flags : Modifiers) : Gives (·.isType = false) (constructor start flags) :=
  .bind fun _ => .bind fun _ => .bind fun _ => .bind fun _ => .pure rfl

theorem method_gives (start : Nat) (flags : Modifiers) (type : TypeRef) (name : Ident) :
    Gives (·.isType = false) (method start flags type name) :=
  .bind fun _ => .bind fun _ => .bind fun _ => .bind fun _ => .ite (.bind fun _ => .pure rfl)
    (.bind fun _ => .bind fun _ => .bind fun _ => .pure rfl)

theorem field_gives (start : Nat) (flags : Modifiers) (type : TypeRef) (name : Ident) :
    Gives (·.isType = false) (field start flags type name) :=
  .bind fun _ => .bind fun _ => .bind fun _ => .pure rfl

/-- What is read behind its modifiers where neither a block nor a type begins: a constructor, a method or a
field. -/
def otherwise (start : Nat) (flags : Modifiers) (owner : String) : Parser (Option Member) := do
  Parser.skipNested .less .greater
  let head ← get
  if head.sees .ident && (head.skip 1).sees .parenOpen && head.next?.any (·.text == owner) then
    return some (← constructor start flags)
  else
    match ← Parser.typeRef with
    | none => return none
    | some type =>
      let name ← Parser.expect .ident
      if ← Parser.sees .parenOpen then return some (← method start flags type name)
      else return some (← field start flags type name)

theorem otherwise_gives (start : Nat) (flags : Modifiers) (owner : String) :
    Gives (fun found : Option Member => ∀ member ∈ found, member.isType = false) (otherwise start flags owner) := by
  have found {read : Parser Member} (other : Gives (·.isType = false) read) :
      Gives (fun found : Option Member => ∀ member ∈ found, member.isType = false) (do return some (← read)) :=
    .follow other fun _ given => .pure fun _ same => Option.some.inj same ▸ given
  refine .bind fun _ => .bind fun _ => .ite (found (constructor_gives _ _)) (.bind fun type? => ?_)
  cases type? with
  | none => exact .pure nofun
  | some type =>
    exact .bind fun name => .bind fun _ => .ite (found (method_gives _ _ _ _)) (found (field_gives _ _ _ _))

theorem typeRef_found {cursor : Cursor} (seen : cursor.sees .ident = true) :
    ∃ type next, Parser.typeRef cursor = (some type,next) := by
  rw [Parser.typeRef,Parser.run_bind,Parser.run_sees]
  simp only [seen,if_true]
  exact ⟨_,_,rfl⟩

/-- What is read where a word stands is found. -/
theorem otherwise_found (start : Nat) (flags : Modifiers) (owner : String) {cursor : Cursor}
    (seen : cursor.sees .ident = true) : ((otherwise start flags owner cursor).1).isSome = true := by
  obtain ⟨passed,_ | ⟨token,rest⟩⟩ := cursor
  · cases seen
  · have ident : token.kind = .ident := beq_iff_eq.mp seen
    obtain ⟨type,next,typed⟩ := typeRef_found seen
    rw [otherwise,Parser.run_bind,Parser.skipNested_lacking (.cons rest (by simp [ident])),Parser.run_bind,
      Parser.run_get]
    dsimp only
    split
    · rfl
    · rw [Parser.run_bind,typed]
      dsimp only
      rw [Parser.run_bind,Parser.run_bind]
      split <;> rfl

/-- A type among members is given the modifiers that were read in front of it. -/
def typed (inner : String → Parser (Option Member)) (start : Nat) (flags : Modifiers) : Parser (Option Member) := do
  match ← typeDecl inner with
  | some decl => return some (.type { decl with modifiers := flags, span := .upTo start decl.span.stop })
  | none => return none

/-- What is read behind modifiers where no block begins. -/
theorem member_run {flags : Modifiers} {cursor next : Cursor} (owner : String) (here : cursor.atEnd = false)
    (front : Parser.modifiers cursor = (flags,next)) (moving : next.seesWord "static" = false)
    (opening : next.sees .braceOpen = false) : member inner owner cursor =
      if seesMemberType next then typed inner cursor.nextStart flags next
      else otherwise cursor.nextStart flags owner next := by
  rw [member,Parser.run_bind,Parser.run_get]
  simp only [here,Bool.false_eq_true,if_false]
  rw [Parser.run_bind,front,Parser.run_bind,Parser.run_get]
  simp only [moving,opening,Bool.false_and,Bool.false_eq_true,if_false]
  split <;> rfl

/-- The type was read behind its modifiers at token `k`, and is read there once more without them, up to the
same place. -/
structure Again (tokens : List Token) (i j : Nat) (decl : TypeDecl) (k : Nat) (kind : TypeKind) (words : Nat) :
    Prop where
  inside : i < tokens.length
  modifiers : Parser.modifiers (.on tokens i) = (decl.modifiers,.on tokens k)
  known : typeKind? (.on tokens k) = some (kind,words)
  whole : declaredType kind decl.modifiers (2 * i + 1) (declared Parser.member kind words (.on tokens k)).1 = decl
  bare : ∃ inner, typeDecl Parser.member (.on tokens k) = (some inner,.on tokens j) ∧
    { inner with modifiers := decl.modifiers, span := .upTo (2 * i + 1) inner.span.stop } = decl

theorem typeDecl_again {decl : TypeDecl} (read : Parser.typeDecl (.on tokens i) = (some decl,.on tokens j))
    (inside : i ≤ tokens.length) : ∃ k kind words, Again tokens i j decl k kind words := by
  obtain ⟨flags,k,front,bound,low,again⟩ := (Reads.modifiers.and modifiers_again) inside
  have whole := @typeDecl_run tokens i k Parser.member _ front
  have behind := @typeDecl_run tokens k k Parser.member _ again
  cases known : typeKind? (.on tokens k) with
  | none =>
    rw [known] at whole
    cases (show (some decl,Cursor.on tokens j) = (none,.on tokens i) from read.symm.trans whole)
  | some found =>
    obtain ⟨kind,words⟩ := found
    rw [known] at whole behind
    dsimp only at whole behind
    obtain ⟨same,stop⟩ := Prod.mk.inj (read.symm.trans whole)
    -- Both times the type reaches from where its reader began to where it stopped.
    obtain ⟨_,_,ran,_,_,given⟩ := Reads.typeDecl_fits inside
    obtain ⟨rfl,there⟩ := Prod.mk.inj (read.symm.trans ran)
    cases congrArg Cursor.passed there
    obtain ⟨on,span,_⟩ := given decl rfl
    obtain ⟨_,_,ran,within,_,given⟩ := Reads.typeDecl_fits bound
    obtain ⟨rfl,there⟩ := Prod.mk.inj (behind.symm.trans ran)
    cases congrArg Cursor.passed (stop.trans there)
    obtain ⟨_,inner,_⟩ := given _ rfl
    rw [← stop] at behind
    cases same
    refine ⟨k,kind,words,by omega,front,known,rfl,_,behind,?_⟩
    rw [inner,Span.upTo_eq (by simp only; omega),← span]
    rfl

/-- Among members a type is read as it is elsewhere, if it is seen to be one. -/
theorem member_type (owner : String) {decl : TypeDecl}
    (read : Parser.typeDecl (.on tokens i) = (some decl,.on tokens j)) (inside : i ≤ tokens.length) :
    (Headed tokens decl → member Parser.member owner (.on tokens i) = (some (.type decl),.on tokens j)) ∧
      (¬ Headed tokens decl → ∃ other, (member Parser.member owner (.on tokens i)).1 = some other ∧
        other.isType = false) := by
  obtain ⟨k,kind,words,before,front,known,whole,inner,behind,joined⟩ := typeDecl_again read inside
  obtain ⟨moving,opening,_,_⟩ := begins_of_typeKind? known
  have ended : (Cursor.on tokens i).atEnd = false := by
    simp only [Cursor.atEnd,Cursor.on,List.isEmpty_eq_false_iff,ne_eq,List.drop_eq_nil_iff,Nat.not_le]
    omega
  have seen : seesMemberType (.on tokens k) = true ↔ Headed tokens decl := by
    rw [← whole]
    exact seesMemberType_iff known
  have unheaded (unseen : ¬ seesMemberType (.on tokens k) = true) : (Cursor.on tokens k).sees .ident = true := by
    simp only [seesMemberType,known,Option.isSome_some,Bool.true_and,Bool.or_eq_true,Bool.not_eq_true',not_or,
      Bool.not_eq_false] at unseen
    exact Cursor.on_sees_iff.mpr (Cursor.on_seesWord_iff.mp unseen.1).ident
  rw [member_run owner ended front moving opening,← seen]
  refine ⟨fun seen => ?_,fun unseen => ?_⟩
  · rw [if_pos seen,typed,Parser.run_bind,behind]
    exact congrArg (fun type => (some (Member.type type),Cursor.on tokens j)) joined
  · rw [if_neg unseen]
    obtain ⟨other,found⟩ := Option.isSome_iff_exists.mp
      (otherwise_found (2 * i + 1) decl.modifiers owner (unheaded unseen))
    exact ⟨other,found,otherwise_gives _ _ _ _ other found⟩

end MemberLevel

/-- A reader of items begins with the first. -/
theorem Parser.gathered_cons {α : Type} {stops : List Kind} {item : Parser (Option α)} {cursor next : Cursor}
    {found : Option α} (here : cursor.atEnd = false) (going : cursor.seesAny stops = false)
    (ran : item cursor = (found,next)) (on : next.passed ≠ cursor.passed) :
    gathered stops item cursor = (found.toList ++ (gather stops item cursor.rest.length next).1,
      (gather stops item cursor.rest.length next).2) := by
  change gather stops item (cursor.rest.length + 1) cursor = _
  rw [gather,run_bind,run_get]
  simp only [here,going,Bool.or_false,Bool.false_eq_true,if_false]
  rw [run_bind,ran,run_bind,run_get]
  simp only [on,if_false]
  rfl

theorem Parser.gather_stop {α : Type} {stops : List Kind} (item : Parser (Option α)) (turns : Nat) {cursor : Cursor}
    (ended : (cursor.atEnd || cursor.seesAny stops) = true) : gather stops item turns cursor = ([],cursor) := by
  cases turns with
  | zero => rfl
  | succ turns =>
    rw [gather,run_bind,run_get]
    simp only [ended,if_true]
    rfl

/-- Nothing but a type is read as one. -/
theorem MemberLevel.typeDecl_seen {decl : TypeDecl} {next : Cursor}
    (read : Parser.typeDecl (.on tokens i) = (some decl,next)) : ¬ Seen tokens i .braceClose := by
  rintro ⟨token,found,closing⟩
  have rest : tokens.drop i = token :: tokens.drop (i + 1) := by
    obtain ⟨here,rfl⟩ := List.getElem?_eq_some_iff.mp found
    exact List.drop_eq_getElem_cons here
  have still : Parser.modifier .none (.on tokens i) = (none,.on tokens i) := by
    rw [Cursor.on,rest,Parser.modifier,Parser.run_bind,Parser.run_get]
    simp [closing,Token.isWord]
    rfl
  have run := @typeDecl_run tokens i i Parser.member _
    (@Parser.repeated_onward _ _ (Modifiers.none,.on tokens i) _ .refl still)
  have none : typeKind? (.on tokens i) = none := by
    simp [Cursor.on,rest,typeKind?,Cursor.sees,Cursor.seesWord,Token.isWord,closing]
  rw [none] at run
  cases run.symm.trans read

/-- A class is read from its header on. -/
theorem MemberLevel.class_run (text : String) (rest : List Token) :
    Parser.typeDecl (.on (word "class" :: word text :: .braceOpen :: rest) 0) =
      let members := Parser.gathered [.braceClose] (Parser.member text)
        (.on (word "class" :: word text :: .braceOpen :: rest) 3)
      let last := (Cursor.expect .braceClose members.2).2
      (some ⟨.classType,.none,⟨text,⟨3,4⟩⟩,.upTo 1 (Span.upTo 5 last.lastStop).stop,.upTo 5 last.lastStop,members.1⟩,
        last) := rfl

/-- Every type of a file is read where it stands. -/
theorem Reads.compilationUnit_read : Reads tokens Parser.compilationUnit i fun file _ => ∀ decl ∈ file.types,
    ∃ k l, l ≤ tokens.length ∧ Parser.typeDecl (.on tokens k) = (some decl,.on tokens l) ∧
      k < l ∧ decl.span = ⟨2 * k + 1,2 * l⟩ := by
  refine bind packageDecl_fits fun package j _ _ => bind (Looped.imports.reads j) fun imports k _ _ => ?_
  refine bind (gathered (fun types _ _ => ∀ decl ∈ types, ∃ k l, l ≤ tokens.length ∧
    Parser.typeDecl (.on tokens k) = (some decl,.on tokens l) ∧ k < l ∧ decl.span = ⟨2 * k + 1,2 * l⟩)
    (fun _ => nofun) fun m _ inside _ => ?_) fun types l known _ => nextStart (pure known)
  intro bound
  obtain ⟨found,n,ran,reach,on,given⟩ := typeDecl_fits bound
  refine ⟨found,n,ran,reach,on,fun list _ rest => ?_⟩
  cases found with
  | none => exact rest
  | some decl =>
    obtain ⟨before,span,_⟩ := given decl rfl
    exact List.forall_mem_cons.mpr ⟨⟨m,n,reach,ran,before,span⟩,rest⟩

end Transplant.Java
