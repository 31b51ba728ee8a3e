import Transplant.Proofs.Java.Nested
import Transplant.Proofs.Java.Placement
import Transplant.Proofs.Java.Unplaced

/-! Where the members of types come from: the reader of members was at each of them, in the types of a file
and in the types inside them. -/
namespace Transplant.Java

open Token (Kind)
open Reads

variable {tokens : List Token} {i k : Nat}

/-- The reader of members makes this one from token `k` on. -/
def Member.ReadAt (tokens : List Token) (k : Nat) (member : Member) : Prop := ∃ owner l,
  Parser.member owner (.on tokens k) = (some member,.on tokens l) ∧ k < l ∧ l ≤ tokens.length ∧
    member.span = ⟨2 * k + 1,2 * l⟩

/-- There one level of the reader makes it. -/
theorem Member.ReadAt.unfolds {member : Member} (read : member.ReadAt tokens k) : k ≤ tokens.length ∧
    ∃ owner next, MemberLevel.member Parser.member owner (.on tokens k) = (some member,next) := by
  obtain ⟨owner,l,ran,before,bound,_⟩ := read
  have inside : k ≤ tokens.length := Nat.le_trans (Nat.le_of_lt before) bound
  obtain ⟨found,_,first,again,_⟩ := MemberLevel.recursion.unfolds k owner inside
  obtain ⟨rfl,_⟩ := Prod.mk.inj (ran.symm.trans first)
  exact ⟨inside,owner,_,again⟩

namespace MemberLevel

theorem member_readAt (owner : String) : Reads tokens (Parser.member owner) k fun found l =>
    k ≤ l ∧ ∀ member, found = some member → member.ReadAt tokens k := by
  intro inside
  obtain ⟨found,l,ran,bound,on,given⟩ :=
    (Reads.bounded fun turns _ => reader_fits turns owner : Reads tokens (Parser.member owner) k _) inside
  refine ⟨found,l,ran,bound,on,?_⟩
  rintro member rfl
  have read := given member rfl
  exact ⟨owner,l,ran,read.before,bound,read.span⟩

/-- What one type is made of: its members were read behind the word that begins it. -/
theorem typeDecl_members : Reads tokens Parser.typeDecl i fun found _ => ∀ decl, found = some decl →
    ∀ member ∈ decl.members, ∃ k, i < k ∧ member.ReadAt tokens k := by
  have members (name : String) (b : Nat) (before : i < b) : Reads tokens
      (Parser.gathered [.braceClose] (Parser.member name)) b fun list c => b ≤ c ∧
        ∀ member ∈ list, ∃ k, i < k ∧ member.ReadAt tokens k := by
    refine gathered (fun list c d => c ≤ d ∧ ∀ member ∈ list, ∃ k, i < k ∧ member.ReadAt tokens k)
      (fun _ => ⟨Nat.le_refl _,nofun⟩) fun c above _ _ => (member_readAt name).mono fun found d given _ =>
        ⟨given.1,fun list j rest => ⟨by split at rest <;> omega,?_⟩⟩
    cases found with
    | none => exact rest.2
    | some member => exact List.forall_mem_cons.mpr ⟨⟨c,by omega,given.2 member rfl⟩,rest.2⟩
  refine (typeDecl_of_members _ members).mono fun found _ given _ => ?_
  rcases given with ⟨rfl,_⟩ | ⟨decl,rfl,_,all⟩
  · nofun
  · rintro _ ⟨⟩
    exact all

theorem initializer_gives (start : Nat) (isStatic : Bool) : Gives (·.isType = false) (initializer start isStatic) :=
  .bind fun _ => .pure rfl

/-- A type among members has the members of a type that was read there. -/
theorem member_inner {inner : TypeDecl} (read : (Member.type inner).ReadAt tokens k) :
    ∃ j decl next, k ≤ j ∧ j ≤ tokens.length ∧ Parser.typeDecl (.on tokens j) = (some decl,next) ∧
      inner.members = decl.members := by
  obtain ⟨inside,owner,_,again⟩ := read.unfolds
  have made : (member Parser.member owner (.on tokens k)).1 = some (.type inner) := congrArg Prod.fst again
  have other {read : Parser Member} {cursor : Cursor} (gives : Gives (·.isType = false) read) :
      ((do return some (← read) : Parser (Option Member)) cursor).1 ≠ some (.type inner) := by
    intro same
    have kind := gives cursor
    rw [Option.some.inj same] at kind
    cases kind
  obtain ⟨flags,j,front,within,low⟩ := Reads.modifiers inside
  rw [member,Parser.run_bind,Parser.run_get] at made
  split at made
  · cases made
  rw [Parser.run_bind,front,Parser.run_bind,Parser.run_get] at made
  split at made
  · exact absurd made (other (initializer_gives _ _))
  split at made
  · exact absurd made (other (initializer_gives _ _))
  split at made
  · rw [Parser.run_bind] at made
    obtain ⟨found,next,typed⟩ : ∃ found next, typeDecl Parser.member (.on tokens j) = (found,next) := ⟨_,_,rfl⟩
    rw [typed] at made
    cases found with
    | none => cases made
    | some decl =>
      cases made
      exact ⟨j,decl,next,low,within,typed,rfl⟩
  · have kind := otherwise_gives _ _ _ _ _ made
    cases kind

end MemberLevel

theorem Member.mem_typesAll {type : TypeDecl} {members : List Member} :
    type ∈ typesAll members ↔ ∃ member ∈ members, type ∈ member.types := by
  induction members with
  | nil => simp [typesAll]
  | cons first rest ih => simp [typesAll,ih]

/-- The members of a type and of the types inside it were read where they stand. -/
theorem types_readAt {decl : TypeDecl} {next : Cursor} (read : Parser.typeDecl (.on tokens i) = (some decl,next))
    (inside : i ≤ tokens.length) : ∀ type ∈ decl.types, ∀ member ∈ type.members, ∃ k, member.ReadAt tokens k := by
  induction left : tokens.length - i using Nat.strongRecOn generalizing i decl next with
  | ind count ih =>
    obtain ⟨_,_,ran,_,own⟩ := MemberLevel.typeDecl_members inside
    rw [read] at ran
    obtain ⟨rfl,_⟩ := Prod.mk.inj ran
    intro type listed member among
    rw [TypeDecl.types_eq] at listed
    rcases List.mem_cons.mp listed with rfl | within
    · obtain ⟨k,_,at'⟩ := own type rfl member among
      exact ⟨k,at'⟩
    · obtain ⟨outer,first,deeper⟩ := Member.mem_typesAll.mp within
      cases outer with
      | type inner =>
        -- The inner type is read further on, so fewer tokens are left there.
        obtain ⟨k,on,at'⟩ := own decl rfl _ first
        obtain ⟨j,again,_,low,bound,run,same⟩ := MemberLevel.member_inner at'
        have all := ih (tokens.length - j) (by omega) run bound rfl
        rw [Member.types,TypeDecl.types_eq,same] at deeper
        rcases List.mem_cons.mp deeper with rfl | deeper
        · rw [same] at among
          exact all again again.mem_types member among
        · exact all type (by rw [TypeDecl.types_eq]; exact List.mem_cons_of_mem _ deeper) member among
      | _ => cases deeper

/-- Every member of every type of a text was read where it stands. -/
theorem parse_readAt (text : Text) : ∀ type ∈ (parse text).allTypes, ∀ member ∈ type.members,
    ∃ (read : Member) (k : Nat),
      member = read.mapSpans (Span.map (offset text)) ∧ read.ReadAt ((Java.tokens text).map (·.token)) k := by
  obtain ⟨file,_,ran,_,known⟩ := Reads.compilationUnit_read (Nat.zero_le ((Java.tokens text).map (·.token)).length)
  intro type listed member among
  rw [parse_read,ran,CompilationUnit.allTypes_mapSpans] at listed
  obtain ⟨raw,within,rfl⟩ := List.mem_map.mp listed
  rw [TypeDecl.members_mapSpans] at among
  obtain ⟨read,own,rfl⟩ := List.mem_map.mp among
  obtain ⟨top,first,inside⟩ := List.mem_flatMap.mp within
  obtain ⟨i,_,bound,run,before,_⟩ := known top first
  obtain ⟨k,at'⟩ := types_readAt run (by omega) raw inside read own
  exact ⟨read,k,rfl,at'⟩

end Transplant.Java
