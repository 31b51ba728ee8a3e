import Transplant.Proofs.Java.Running

/-! Tokens with their brackets closed. What is passed over from a bracket on, or up to the end of a
statement, is passed over to the bracket or the semicolon that a reader would find there. -/
namespace Transplant.Java

open Token (Kind)

namespace Token

def semicolon : Token := ⟨.semicolon,";"⟩

/-- The brackets between which anything may stand. -/
def enclosing : List (Token × Token) := [(.parenOpen,.parenClose),(.braceOpen,.braceClose)]

def bracketKinds : List Kind := [.parenOpen,.parenClose,.braceOpen,.braceClose,.bracketOpen,.bracketClose]

end Token

/-- Every bracket is closed by one of its kind, and outside of parentheses and braces stands no token of the
kinds that end it. -/
inductive Balanced : List Kind → List Token → Prop where
  | nil (stops : List Kind) : Balanced stops []
  | token {stops : List Kind} {token : Token} {rest : List Token} (going : token.kind ∉ stops)
      (single : token.kind ∉ Token.bracketKinds) (behind : Balanced stops rest) : Balanced stops (token :: rest)
  | enclosed {stops : List Kind} {pair : Token × Token} {inner rest : List Token} (listed : pair ∈ Token.enclosing)
      (inside : Balanced [] inner) (behind : Balanced stops rest) :
      Balanced stops (pair.1 :: (inner ++ pair.2 :: rest))
  | indexed {stops : List Kind} {inner rest : List Token} (inside : Balanced stops inner)
      (behind : Balanced stops rest) : Balanced stops (.bracketOpen :: (inner ++ .bracketClose :: rest))

section

variable {stops : List Kind} {list rest : List Token} {pair : Token × Token}

/-- All of it is passed over inside of brackets. -/
theorem Balanced.nestedLength (balanced : Balanced stops list) (listed : pair ∈ Token.enclosing) (depth : Nat)
    (rest : List Token) : nestedLength pair.1.kind pair.2.kind (depth + 1) (list ++ rest) =
      list.length + nestedLength pair.1.kind pair.2.kind (depth + 1) rest := by
  have outer : pair.1.kind ∈ Token.bracketKinds ∧ pair.2.kind ∈ Token.bracketKinds ∧ pair.1.kind ≠ pair.2.kind ∧
      ∀ other ∈ Token.enclosing, other.1.kind = pair.1.kind ∧ other.2.kind = pair.2.kind ∨
        other.1.kind ∉ [pair.1.kind,pair.2.kind] ∧ other.2.kind ∉ [pair.1.kind,pair.2.kind] := by
    revert pair
    decide
  obtain ⟨opening,closing,different,others⟩ := outer
  have square : Kind.bracketOpen ∉ [pair.1.kind,pair.2.kind] ∧ Kind.bracketClose ∉ [pair.1.kind,pair.2.kind] := by
    revert pair
    decide
  have single (token : Token) (depth : Nat) (rest : List Token) (other : token.kind ∉ [pair.1.kind,pair.2.kind]) :
      Java.nestedLength pair.1.kind pair.2.kind (depth + 1) (token :: rest) =
        Java.nestedLength pair.1.kind pair.2.kind (depth + 1) rest + 1 := by
    simp only [List.mem_cons,List.not_mem_nil,or_false,not_or] at other
    rw [Java.nestedLength,if_neg other.1,if_neg other.2]
  induction balanced generalizing depth rest with
  | nil => exact (Nat.zero_add _).symm
  | @token stops token tail going plain behind ih =>
    have other : token.kind ∉ [pair.1.kind,pair.2.kind] := by
      rintro member
      simp only [List.mem_cons,List.not_mem_nil,or_false] at member
      rcases member with same | same <;> exact plain (same ▸ ‹_›)
    rw [List.cons_append,single token depth _ other,ih,List.length_cons]
    omega
  | @enclosed stops own inner tail known inside behind first second =>
    have shape : own.1 :: (inner ++ own.2 :: tail) ++ rest = own.1 :: (inner ++ own.2 :: (tail ++ rest)) := by simp
    rw [shape]
    rcases others own known with ⟨open',close'⟩ | ⟨open',close'⟩
    · rw [Java.nestedLength,if_pos open',first,Java.nestedLength,if_neg (fun same => different (same.symm.trans close')),
        if_pos close',second]
      simp only [List.length_cons,List.length_append]
      omega
    · rw [single _ _ _ open',first,single _ _ _ close',second]
      simp only [List.length_cons,List.length_append]
      omega
  | @indexed stops inner tail inside behind first second =>
    have shape : Token.bracketOpen :: (inner ++ Token.bracketClose :: tail) ++ rest =
        Token.bracketOpen :: (inner ++ Token.bracketClose :: (tail ++ rest)) := by simp
    rw [shape,single _ _ _ square.1,first,single _ _ _ square.2,second]
    simp only [List.length_cons,List.length_append]
    omega

/-- Up to the bracket that closes what is open. -/
theorem Balanced.nestedLength_closed (balanced : Balanced stops list) (listed : pair ∈ Token.enclosing) :
    Java.nestedLength pair.1.kind pair.2.kind 1 (list ++ pair.2 :: rest) = list.length + 1 := by
  have different : pair.2.kind ≠ pair.1.kind := by
    revert pair
    decide
  rw [balanced.nestedLength listed 0,Java.nestedLength,if_neg different,if_pos rfl,Java.nestedLength]

/-- Inside of brackets only these count. -/
theorem outsideLength_inside (brackets : List (Kind × Kind)) (opening closing : Kind) (depth : Nat) (list : List Token) :
    outsideLength stops brackets (some (opening,closing,depth)) list =
      nestedLength opening closing (depth + 1) list +
        outsideLength stops brackets none (list.drop (nestedLength opening closing (depth + 1) list)) := by
  induction list generalizing depth with
  | nil => rfl
  | cons token rest ih =>
    rw [outsideLength,nestedLength]
    split
    · simp only [ih,List.drop_succ_cons,Nat.add_assoc,Nat.reduceAdd]
      omega
    · split
      · cases depth with
        | zero => simp [nestedLength,Nat.add_comm]
        | succ depth =>
          simp only [Nat.succ_ne_zero,if_false,Nat.add_sub_cancel,ih,List.drop_succ_cons]
          omega
      · simp only [ih,List.drop_succ_cons]
        omega

/-- All of it is passed over on the way to the end of a statement. -/
theorem Balanced.outsideLength (balanced : Balanced stops list) (ends : .semicolon ∈ stops) (rest : List Token) :
    outsideLength [.semicolon,.braceClose] [Parser.parens,Parser.braces] none (list ++ rest) =
      list.length + outsideLength [.semicolon,.braceClose] [Parser.parens,Parser.braces] none rest := by
  have single (token : Token) (rest : List Token) (other : token.kind ∉
      [Kind.semicolon,.braceClose,.parenOpen,.braceOpen]) :
      Java.outsideLength [.semicolon,.braceClose] [Parser.parens,Parser.braces] none (token :: rest) =
        Java.outsideLength [.semicolon,.braceClose] [Parser.parens,Parser.braces] none rest + 1 := by
    simp only [List.mem_cons,List.not_mem_nil,or_false,not_or] at other
    rw [Java.outsideLength,if_neg (by simp [other])]
    have free : [Parser.parens,Parser.braces].find? (·.1 == token.kind) = none := by
      simp [Parser.parens,Parser.braces,Ne.symm other.2.2.1,Ne.symm other.2.2.2]
    rw [free]
    rfl
  induction balanced generalizing rest with
  | nil => exact (Nat.zero_add _).symm
  | @token stops token tail going plain behind ih =>
    have other : token.kind ∉ [Kind.semicolon,.braceClose,.parenOpen,.braceOpen] := by
      simp only [Token.bracketKinds,List.mem_cons,List.not_mem_nil,or_false,not_or] at plain ⊢
      exact ⟨fun same => going (same ▸ ends),plain.2.2.2.1,plain.1,plain.2.2.1⟩
    rw [List.cons_append,single token _ other,ih ends,List.length_cons]
    omega
  | @enclosed stops own inner tail known inside behind first second =>
    have shape : own.1 :: (inner ++ own.2 :: tail) ++ rest = own.1 :: (inner ++ own.2 :: (tail ++ rest)) := by simp
    have opens : ∀ pair ∈ Token.enclosing, [Kind.semicolon,.braceClose].contains pair.1.kind = false ∧
        [Parser.parens,Parser.braces].find? (·.1 == pair.1.kind) = some (pair.1.kind,pair.2.kind) := by decide
    rw [shape,Java.outsideLength,(opens own known).1,(opens own known).2]
    simp only [Bool.false_eq_true,if_false,Option.map_some]
    rw [outsideLength_inside,inside.nestedLength_closed known]
    have dropped : (inner ++ own.2 :: (tail ++ rest)).drop (inner.length + 1) = tail ++ rest := by
      rw [List.drop_append,List.drop_eq_nil_of_le (Nat.le_succ _)]
      simp
    rw [dropped,second ends]
    simp only [List.length_cons,List.length_append]
    omega
  | @indexed stops inner tail inside behind first second =>
    have shape : Token.bracketOpen :: (inner ++ Token.bracketClose :: tail) ++ rest =
        Token.bracketOpen :: (inner ++ Token.bracketClose :: (tail ++ rest)) := by simp
    rw [shape,single _ _ (by decide),first ends,single _ _ (by decide),second ends]
    simp only [List.length_cons,List.length_append]
    omega

end

namespace Parser

variable {p : Nat} {inner list rest : List Token}

/-- A bracket is passed over with what it encloses. -/
theorem skipNested_enclosed {stops : List Kind} {pair : Token × Token} (balanced : Balanced stops inner)
    (listed : pair ∈ Token.enclosing) :
    skipNested pair.1.kind pair.2.kind ⟨p,pair.1 :: (inner ++ pair.2 :: rest)⟩ =
      ((),⟨p + (inner.length + 2),rest⟩) := by
  rw [skipNested,run_bind,eat_seen pair.1 _ rfl]
  simp only [if_true]
  change ((),Cursor.skip _ _) = _
  rw [balanced.nestedLength_closed listed]
  simp [Cursor.skip]
  omega

/-- A statement is passed over up to the semicolon behind it. -/
theorem skipStatement_balanced (balanced : Balanced [.semicolon] list) :
    skipStatement ⟨p,list ++ .semicolon :: rest⟩ = ((),⟨p + list.length,.semicolon :: rest⟩) := by
  change ((),Cursor.skip _ _) = _
  rw [balanced.outsideLength List.mem_cons_self]
  have stops : Java.outsideLength [.semicolon,.braceClose] [parens,braces] none (.semicolon :: rest) = 0 := rfl
  rw [stops]
  simp [Cursor.skip]

end Parser

end Transplant.Java
