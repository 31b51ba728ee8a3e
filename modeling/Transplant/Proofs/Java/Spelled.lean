import Transplant.Java.Stmt.Parser
import Transplant.Proofs.Body.Walk
import Transplant.Proofs.Java.Reading

/-! How the visits on the way through a tree lie among the tokens it was read from. Every token
belongs to one visit or is quiet, that is, no visit can be expected of it: a symbol, a keyword, or a
word at a place where no variable can be named. -/
namespace Transplant.Java

/-- The words that are never names where a statement or an expression is read. -/
def reservedWords : List String := "final" :: StmtLevel.statementWords

/-- The reserved words that are met as part of what stands around them only. -/
def passedWords : List String := reservedWords.filter fun word => word != "this" && word != "super"

/-- Where the type arguments end that begin before token `i`. -/
def argumentsEnd (tokens : List Token) (i : Nat) : Nat :=
  stopOf (Parser.skipNested .less .greater) tokens i

/-- Where the annotation ends that begins before token `i`. -/
def annotatedEnd (tokens : List Token) (i : Nat) : Nat :=
  stopOf Parser.skipAnnotation tokens i

/-- Tokens that belong to no visit. -/
inductive Quiet (tokens : List Token) (k : Nat) : Prop where
  | symbol (token : Token) (found : tokens[k]? = some token) (other : token.kind ≠ .ident)
  | word (text : String) (seen : SeenWord tokens k text) (passed : text ∈ passedWords)
  | member (dot : Nat) (seen : Seen tokens dot .dot) (place : k = argumentsEnd tokens (dot + 1))
  | typeArgument (front : Nat) (seen : Seen tokens front .dot ∨ SeenWord tokens front "new")
      (low : front < k) (high : k < argumentsEnd tokens (front + 1))
  | annotated (sign : Nat) (seen : Seen tokens sign .atSign) (low : sign ≤ k)
      (high : k < annotatedEnd tokens sign)
  | label (jump : Nat) (seen : SeenWord tokens jump "break" ∨ SeenWord tokens jump "continue")
      (place : k = jump + 1)

/-- The visit takes up the tokens from number `i` to before number `m`. -/
inductive Marks (tokens : List Token) : Visit → Nat → Nat → Prop where
  | name {i : Nat} (token : Token) (found : tokens[i]? = some token) (ident : token.kind = .ident)
      (visible : Locals) (access : Access) (ordinary : token.text ≠ "this" ∧ token.text ≠ "super") :
      Marks tokens (.name token.text visible access ⟨2 * i + 1,2 * i + 2⟩) i (i + 1)
  | this {i : Nat} (seen : SeenWord tokens i "this") :
      Marks tokens (.this ⟨2 * i + 1,2 * i + 2⟩) i (i + 1)
  | super {i : Nat} (seen : SeenWord tokens i "super") :
      Marks tokens (.super ⟨2 * i + 1,2 * i + 2⟩) i (i + 1)
  | call {i : Nat} (callee : Ident) (arity : Nat) (span : Span)
      (opened : Seen tokens (i + 1) .parenOpen) (start : span.start = 2 * i + 1)
      (named : SeenWord tokens i callee.text) (place : callee.span = ⟨2 * i + 1,2 * i + 2⟩) :
      Marks tokens (.call callee arity span) i (i + 1)
  | callOnThis (i : Nat) (callee : Ident) (arity : Nat) (span : Span) :
      Marks tokens (.callOnThis callee arity span) i i
  | create {i : Nat} (created : String) (span : Span) (seen : SeenWord tokens i "new")
      (start : span.start = 2 * i + 1) : Marks tokens (.create created span) i (i + 1)
  | type {i m : Nat} (span : Span) (order : i ≤ m) (start : span.start = 2 * i + 1)
      (stop : 2 * m ≤ span.stop ∧ span.stop ≤ 2 * m + 1) : Marks tokens (.type span) i m
  | binding {i m : Nat} (span : Span) (order : i ≤ m) (start : span.start ≤ 2 * i + 1)
      (stop : 2 * m ≤ span.stop ∧ span.stop ≤ 2 * m + 1) : Marks tokens (.binding span) i m
  | declare {i : Nat} (declared : Local) (named : SeenWord tokens i declared.name.text)
      (place : declared.name.span = ⟨2 * i + 1,2 * i + 2⟩) :
      Marks tokens (.declare declared) i (i + 1)
  | unnamed {i : Nat} (declared : Local) (unseen : ¬ Seen tokens i .ident)
      (place : declared.name.span = ⟨2 * i,2 * i⟩) (empty : declared.name.text = "") :
      Marks tokens (.declare declared) i i
  | resources {i m : Nat} (span : Span) (order : i ≤ m) (start : span.start = 2 * i + 1)
      (stop : 2 * m ≤ span.stop ∧ span.stop ≤ 2 * m + 1) : Marks tokens (.resources span) i m
  | leave (i : Nat) (span : Span) : Marks tokens (.leave span) i i
  | missing {i m : Nat} (span : Span) (order : i ≤ m) : Marks tokens (.missing span) i m
  | anonymous {i m : Nat} (span : Span) (order : i ≤ m) : Marks tokens (.anonymous span) i m
  | unsupported {i m : Nat} (span : Span) (order : i ≤ m) : Marks tokens (.unsupported span) i m

/-- From token `i` to before token `j` there are just these visits, one behind the other, and
between them quiet tokens only. -/
inductive Spelled (tokens : List Token) : List Visit → Nat → Nat → Prop where
  | nil (i : Nat) : Spelled tokens [] i i
  | quiet {visits : List Visit} {i j : Nat} (first : Quiet tokens i)
      (rest : Spelled tokens visits (i + 1) j) : Spelled tokens visits i j
  | mark {visit : Visit} {visits : List Visit} {i m j : Nat} (first : Marks tokens visit i m)
      (rest : Spelled tokens visits m j) : Spelled tokens (visit :: visits) i j

variable {tokens : List Token} {visit : Visit} {visits others : List Visit} {i k m j : Nat}

theorem Seen.quiet {kind : Token.Kind} (seen : Seen tokens k kind) (other : kind ≠ .ident) :
    Quiet tokens k := by
  obtain ⟨token,found,rfl⟩ := seen
  exact .symbol token found other

theorem Marks.le (marks : Marks tokens visit i m) : i ≤ m := by
  cases marks <;> omega

namespace Spelled

theorem le (spelled : Spelled tokens visits i j) : i ≤ j := by
  induction spelled with
  | nil => exact Nat.le_refl _
  | quiet _ _ ih => omega
  | mark first _ ih => exact Nat.le_trans first.le ih

theorem append (first : Spelled tokens visits i m) (second : Spelled tokens others m j) :
    Spelled tokens (visits ++ others) i j := by
  induction first with
  | nil => exact second
  | quiet known _ ih => exact .quiet known (ih second)
  | mark known _ ih => exact .mark known (ih second)

theorem one (first : Marks tokens visit i m) : Spelled tokens [visit] i m := .mark first (.nil m)

theorem pass (order : i ≤ m) (quiet : ∀ k, i ≤ k → k < m → Quiet tokens k)
    (rest : Spelled tokens visits m j) : Spelled tokens visits i j := by
  obtain ⟨count,rfl⟩ := Nat.exists_eq_add_of_le order
  clear order
  induction count generalizing i with
  | zero => exact rest
  | succ count ih =>
    have shift : i + (count + 1) = i + 1 + count := by omega
    rw [shift] at quiet rest
    exact .quiet (quiet i (Nat.le_refl i) (by omega)) (ih (fun k low high => quiet k (by omega) high) rest)

/-- Quiet tokens behind the last visit. -/
theorem andQuiet (first : Spelled tokens visits i m) (last : Quiet tokens m) :
    Spelled tokens visits i (m + 1) := by
  simpa using first.append (.quiet last (.nil _))

/-- A single visit stands somewhere between quiet tokens. -/
theorem single (spelled : Spelled tokens [visit] i j) :
    ∃ k m, i ≤ k ∧ m ≤ j ∧ Marks tokens visit k m := by
  generalize listed : [visit] = visits at spelled
  induction spelled with
  | nil => cases listed
  | quiet _ _ ih =>
    obtain ⟨k,m,low,high,marks⟩ := ih listed
    exact ⟨k,m,by omega,high,marks⟩
  | mark first rest _ =>
    cases listed
    exact ⟨_,_,Nat.le_refl _,rest.le,first⟩

/-- Every visit has its place. -/
theorem marked (spelled : Spelled tokens visits i j) :
    ∀ visit ∈ visits, ∃ k m, i ≤ k ∧ m ≤ j ∧ Marks tokens visit k m := by
  induction spelled with
  | nil => simp
  | quiet _ _ ih =>
    intro visit member
    obtain ⟨k,m,low,high,marks⟩ := ih visit member
    exact ⟨k,m,by omega,high,marks⟩
  | mark first rest ih =>
    intro visit member
    rcases List.mem_cons.mp member with rfl | member
    · exact ⟨_,_,Nat.le_refl _,rest.le,first⟩
    · obtain ⟨k,m,low,high,marks⟩ := ih visit member
      exact ⟨k,m,Nat.le_trans first.le low,high,marks⟩

/-- Visits take up their tokens one after the other. -/
theorem ordered (spelled : Spelled tokens visits i j) : visits.Pairwise fun first second =>
    ∃ a b c d, Marks tokens first a b ∧ Marks tokens second c d ∧ b ≤ c ∧ d ≤ j := by
  induction spelled with
  | nil => exact .nil
  | quiet _ _ ih => exact ih
  | mark first rest ih =>
    refine .cons ?_ ih
    intro second member
    obtain ⟨c,d,low,high,marks⟩ := rest.marked second member
    exact ⟨_,_,c,d,first,marks,low,high⟩

/-- Different visits take up different tokens. -/
theorem apart (spelled : Spelled tokens visits i j) (first second : Visit) (inFirst : first ∈ visits)
    (inSecond : second ∈ visits) (different : first ≠ second) : ∃ a b c d, Marks tokens first a b ∧
      Marks tokens second c d ∧ (b ≤ c ∨ d ≤ a) ∧ b ≤ j ∧ d ≤ j := by
  induction spelled with
  | nil => cases inFirst
  | quiet _ _ ih => exact ih inFirst inSecond
  | mark marks rest ih =>
    have reach := rest.le
    rcases List.mem_cons.mp inFirst with rfl | later
    · rcases List.mem_cons.mp inSecond with rfl | behind
      · exact absurd rfl different
      · obtain ⟨c,d,low,high,found⟩ := rest.marked second behind
        exact ⟨_,_,c,d,marks,found,.inl low,reach,high⟩
    · rcases List.mem_cons.mp inSecond with rfl | behind
      · obtain ⟨a,b,low,high,found⟩ := rest.marked first later
        exact ⟨a,b,_,_,found,marks,.inr low,high,reach⟩
      · exact ih later behind

/-- No token is left out. -/
theorem covered (spelled : Spelled tokens visits i j) (low : i ≤ k) (high : k < j) :
    Quiet tokens k ∨ ∃ visit ∈ visits, ∃ a b, Marks tokens visit a b ∧ a ≤ k ∧ k < b ∧ b ≤ j := by
  induction spelled with
  | nil => omega
  | quiet first _ ih =>
    rcases Nat.lt_or_eq_of_le low with later | rfl
    · exact ih later high
    · exact .inl first
  | @mark visit visits i m j first rest ih =>
    rcases Nat.lt_or_ge k m with inside | behind
    · exact .inr ⟨visit,List.mem_cons_self,i,m,first,low,inside,rest.le⟩
    · rcases ih behind high with quiet | ⟨other,member,found⟩
      · exact .inl quiet
      · exact .inr ⟨other,List.mem_cons_of_mem _ member,found⟩

end Spelled
end Transplant.Java
