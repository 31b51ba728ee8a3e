import Transplant.Proofs.Java.Behind
import Transplant.Proofs.Java.Sealed

/-! Tokens that are a whole expression with nothing open at its end. They are firm: wherever an expression of that
rank may stand, they are read as before. -/
namespace Transplant.Java

open ExprLevel (Settled expr_settled)
open Java.Parser (exprReaders)

namespace Phrase

/-- In front of some other tokens, the tokens are read as an expression that is complete and sealed and no operation,
whatever was passed before. -/
structure Whole (phrase : Phrase) (more : List Token) : Prop where
  some : more ≠ []
  single : phrase.value.isOperation = false
  ran : ∀ p, ∃ t : Expr, t.bare = phrase.value.bare ∧ t.isComplete = true ∧ t.isSealed = true ∧
    Parser.expr ⟨p,phrase.words ++ more⟩ = (t,⟨p + phrase.words.length,more⟩)

namespace Whole

variable {phrase : Phrase} {more : List Token}

/-- The tokens of the phrase with any number of others in front. -/
def after (phrase : Phrase) (p : Nat) : List Token := List.replicate p .dot ++ phrase.words

theorem length_after (p : Nat) : (after phrase p).length = p + phrase.words.length := by simp [after]

theorem on_after (p : Nat) (rest : List Token) : Cursor.on (after phrase p ++ rest) p = ⟨p,phrase.words ++ rest⟩ := by
  rw [Cursor.on,after,List.append_assoc,List.drop_left' List.length_replicate]

theorem drop_after (p : Nat) (rest : List Token) : (after phrase p ++ rest).drop (p + phrase.words.length) = rest :=
  List.drop_left' (length_after p)

theorem on_behind (p : Nat) (rest : List Token) :
    Cursor.on (after phrase p ++ rest) (p + phrase.words.length) = ⟨p + phrase.words.length,rest⟩ := by
  rw [Cursor.on,drop_after]

theorem alike (p : Nat) (rest : List Token) : ∀ k < p + phrase.words.length,
    (after phrase p ++ more)[k]? = (after phrase p ++ rest)[k]? := by
  intro k before
  rw [← length_after p] at before
  rw [List.getElem?_append_left before,List.getElem?_append_left before]

theorem settled (whole : phrase.Whole more) (p : Nat) : ∃ t : Expr, t.bare = phrase.value.bare ∧ t.isSealed = true ∧
    Settled (after phrase p ++ more) p t (p + phrase.words.length) := by
  obtain ⟨t,same,complete,closed,read⟩ := whole.ran p
  rw [← on_after,← on_behind] at read
  have others := List.length_pos_iff.mpr whole.some
  have all : (after phrase p ++ more).length = p + phrase.words.length + more.length := by
    rw [List.length_append,length_after]
  exact ⟨t,same,closed,expr_settled (by omega) read ((Expr.isOperation_of_bare same).trans whole.single) complete closed
    (by omega)⟩

theorem words_ne_nil (whole : phrase.Whole more) : phrase.words ≠ [] := by
  obtain ⟨t,_,_,settled⟩ := whole.settled 0
  have long := settled.before.lt
  exact List.length_pos_iff.mp (by omega)

/-- The first token. -/
theorem opens (whole : phrase.Whole more) : ∃ token others, phrase.words = token :: others ∧
    (token.kind ∈ ExprLevel.openers ∨ (ExprLevel.leadingOp token.kind).isSome = true ∧ phrase.rank = 12) := by
  obtain ⟨token,others,words⟩ := List.exists_cons_of_ne_nil whole.words_ne_nil
  obtain ⟨t,same,_,settled⟩ := whole.settled 0
  obtain ⟨first,found,opens⟩ := settled.opens
  obtain rfl : first = token := by simpa [after,words] using found.symm
  rw [Expr.rank_of_bare same] at opens
  exact ⟨first,others,words,opens⟩

/-- The last token. -/
theorem closes (whole : phrase.Whole more) : ∃ token ∈ phrase.words.getLast?, token.Closes := by
  obtain ⟨t,_,_,settled⟩ := whole.settled 0
  obtain ⟨token,found,closes⟩ := settled.before.last
  have some := List.length_pos_iff.mpr whole.words_ne_nil
  rw [List.getElem?_append_left (by rw [length_after]; omega),after,List.replicate_zero,List.nil_append,Nat.zero_add] at found
  exact ⟨token,by rw [List.getLast?_eq_getElem?,found]; rfl,closes⟩

/-- Such a phrase is firm. -/
theorem firm (whole : phrase.Whole more) : phrase.Firm := by
  obtain ⟨t,same,closed,_⟩ := whole.settled 0
  have plain : phrase.value.isPrimitive = false :=
    (Expr.isPrimitive_of_bare same).symm.trans (Expr.isPrimitive_of_isSealed closed)
  obtain ⟨token,others,words,opens⟩ := whole.opens
  have quiet : ∀ kind ∈ ExprLevel.openers, kind ∉ ExprLevel.closers ∧ ExprLevel.leadingOp kind = none := by decide
  have closing : token.kind ∉ ExprLevel.closers := by
    rcases opens with opener | ⟨leads,_⟩
    · exact (quiet _ opener).1
    · have none : ∀ kind ∈ ExprLevel.closers, (ExprLevel.leadingOp kind).isSome = false := by decide
      intro closer
      rw [none _ closer] at leads
      cases leads
  rcases Expr.rank_single whole.single with twelve | tight
  · refine .of_unary plain ⟨token,others,words,closing,False.elim⟩ twelve fun p => ?_
    obtain ⟨t,same,_,settled⟩ := whole.settled p
    have level : exprReaders.unary = ExprLevel.unary exprReaders := congrArg ExprReaders.unary Parser.exprReaders_unfold
    refine ⟨t,same,fun rest stops => ?_⟩
    have read := settled.unary (after phrase p ++ rest) (alike p rest) (by rw [drop_after]; exact stops.mono (by decide))
    rwa [on_after,on_behind,← level] at read
  · have leading : ExprLevel.leadingOp token.kind = none := by
      rcases opens with opener | ⟨_,rank⟩
      · exact (quiet _ opener).2
      · have : 13 ≤ phrase.rank := tight
        omega
    refine .of_primary plain ⟨token,others,words,closing,fun _ => leading⟩ tight fun p => ?_
    obtain ⟨t,same,_,settled⟩ := whole.settled p
    refine ⟨t,same,fun rest follows => ?_⟩
    have read := settled.primary ((Expr.rank_of_bare same).symm ▸ tight) (after phrase p ++ rest) (alike p rest) ?_
    · rwa [on_after,on_behind] at read
    · rw [drop_after]
      constructor
      · rw [Expr.isCallee_of_bare same]
        exact follows.stops
      · intro creates last
        refine follows.flat ((Expr.isCreation_of_bare same).symm.trans creates) ?_
        have taken : (after phrase p ++ more).take (p + phrase.words.length) = after phrase p :=
          List.take_left' (length_after p)
        rwa [taken,after,List.getLast?_append_of_ne_nil _ whole.words_ne_nil] at last

end Whole

end Phrase
end Transplant.Java
