import Mathlib.Data.List.Chain
import Transplant.Proofs.Java.Fits
import Transplant.Proofs.Java.Parts
import Transplant.Java.Stmt.Parser

/-! The text of a type reference. It is the text of the tokens that the type takes up, written one behind
the other with a blank behind each comma and around the bars between caught types. -/
namespace Transplant.Java

open Token (Kind)
open Reads

/-- A token of a kind that is spelled in one way is spelled so. -/
def Token.Plain (token : Token) : Prop := ∀ symbol ∈ symbols, symbol.2 = token.kind → token.text.toList = symbol.1

theorem Token.Plain.text {token : Token} (plain : token.Plain) {spelling : Text} {kind : Kind}
    (listed : (spelling,kind) ∈ symbols) (same : token.kind = kind) : token.text.toList = spelling :=
  plain _ listed same.symm

theorem scanToken_plain (c : Char) (text : Text) :
    (⟨(scanToken c text).1,String.ofList (c :: (scanToken c text).2.1)⟩ : Token).Plain := by
  have single : ∀ symbol ∈ symbols, symbol.2 ≠ .string ∧ symbol.2 ≠ .char ∧ symbol.2 ≠ .number ∧ symbol.2 ≠ .ident ∧
      symbol.2 ≠ .unknown ∧ symbol.1 ≠ [] := by decide
  have distinct : ∀ symbol ∈ symbols, ∀ other ∈ symbols, symbol.2 = other.2 → symbol = other := by decide +kernel
  intro symbol listed same
  obtain ⟨string,char,number,word,unknown,_⟩ := single symbol listed
  simp only [scanToken] at same ⊢
  split at same
  · exact absurd same string
  rename_i doubled
  split at same
  · exact absurd same char
  rename_i quoted
  split at same
  · exact absurd same number
  rename_i digit
  split at same
  · exact absurd same word
  rename_i other
  split at same
  · rename_i found
    have member := List.mem_of_find?_eq_some found
    obtain rfl := distinct symbol listed _ member same
    have front := List.find?_some found
    obtain ⟨rest,whole⟩ := List.isPrefixOf_iff_prefix.mp front
    obtain ⟨d,taken,spelled⟩ := List.exists_cons_of_ne_nil (single _ member).2.2.2.2.2
    simp only at spelled
    rw [spelled,List.cons_append] at whole
    obtain ⟨rfl,rfl⟩ := List.cons.inj whole
    simp [spelled,doubled,quoted,digit,other]
  · exact absurd same unknown

/-- What holds of each token where it is cut out holds of all tokens of a text. -/
theorem tokens_each {known : Token → Prop}
    (each : ∀ c text, known ⟨(scanToken c text).1,String.ofList (c :: (scanToken c text).2.1)⟩) (text : Text) :
    ∀ token ∈ (tokens text).map (·.token), known token := by
  have from' (start : Nat) (text : Text) : ∀ token ∈ (tokensFrom start text).map (·.token), known token := by
    induction length : text.length using Nat.strongRecOn generalizing start text with
    | ind count ih =>
      cases behind : (scanGap .blank text).2 with
      | nil => simp [tokensFrom_none start behind]
      | cons c rest =>
        obtain ⟨span,read⟩ := tokensFrom_some start behind
        have whole := congrArg List.length (scanGap_append .blank text)
        have part := congrArg List.length (scanToken_append c rest)
        rw [behind] at whole
        simp only [List.length_append,List.length_cons] at whole part
        rw [read,List.map_cons]
        exact List.forall_mem_cons.mpr ⟨each c rest,ih _ (by omega) span.stop _ rfl⟩
  exact from' 0 text

theorem tokens_plain (text : Text) : ∀ token ∈ (tokens text).map (·.token), token.Plain :=
  tokens_each scanToken_plain text

/-- Tokens with a blank behind each comma. -/
def spread (own : List Token) : List Piece := own.map fun token => (token,if token.kind = .comma then [' '] else [])

theorem extract_append {tokens : List Token} {i j k : Nat} (first : i ≤ j) (second : j ≤ k) :
    tokens.extract i j ++ tokens.extract j k = tokens.extract i k := by
  have rest : tokens.drop j = (tokens.drop i).drop (j - i) := by rw [List.drop_drop,show i + (j - i) = j by omega]
  rw [List.extract_eq_take_drop,List.extract_eq_take_drop,List.extract_eq_take_drop,rest,
    show k - i = (j - i) + (k - j) by omega,List.take_add]

theorem extract_one {tokens : List Token} {i : Nat} {token : Token} (found : tokens[i]? = some token) :
    tokens.extract i (i + 1) = [token] := by
  obtain ⟨inside,rfl⟩ := List.getElem?_eq_some_iff.mp found
  rw [List.extract_eq_take_drop,Nat.add_sub_cancel_left,List.drop_eq_getElem_cons inside,List.take_succ_cons,
    List.take_zero]

/-- From token `i` to before token `j` the text is that of the tokens, spread out. -/
structure Shows (tokens : List Token) (i j : Nat) (text : String) : Prop where
  order : i ≤ j
  inside : j ≤ tokens.length
  text : text.toList = written (spread (tokens.extract i j))

section

variable {tokens : List Token} {i j k : Nat} {first second : String} {token : Token}

theorem Shows.nil (inside : i ≤ tokens.length) : Shows tokens i i "" :=
  ⟨Nat.le_refl i,inside,by simp [List.extract_eq_take_drop,spread,written]⟩

theorem Shows.append (front : Shows tokens i j first) (behind : Shows tokens j k second) :
    Shows tokens i k (first ++ second) where
  order := Nat.le_trans front.order behind.order
  inside := behind.inside
  text := by
    rw [String.toList_append,front.text,behind.text,← extract_append front.order behind.order,spread,spread,spread,
      List.map_append,written_append]

theorem Shows.one (found : tokens[i]? = some token) (other : token.kind ≠ .comma) :
    Shows tokens i (i + 1) token.text where
  order := Nat.le_succ i
  inside := (List.getElem?_eq_some_iff.mp found).1
  text := by simp [extract_one found,spread,written,other]

variable (plain : ∀ token ∈ tokens, token.Plain)

include plain

theorem typeArguments_shows : Reads tokens Parser.typeArguments i fun text j => Shows tokens i j text := by
  refine assume fun inside => sees (fun _ => get ?_) fun _ => pure (.nil inside)
  refine bind (skipBy fun _ => _) fun _ j stop bound => pure ⟨by omega,bound,?_⟩
  have own : tokens.extract i j = (tokens.drop i).take (nestedLength .less .greater 1 ((tokens.drop i).drop 1) + 1) := by
    rw [List.extract_eq_take_drop,List.take_eq_take_iff,List.length_drop]
    simp only [Cursor.on] at stop
    omega
  rw [own,String.toList_join,List.flatMap_map,written,spread,List.flatMap_map]
  refine List.flatMap_congr fun token listed => ?_
  have known := plain token (List.mem_of_mem_drop (List.mem_of_mem_take listed))
  split
  · rename_i comma
    rw [known.text (by decide : ([','],Kind.comma) ∈ symbols) comma]
    rfl
  · simp

theorem typeSegment_shows (text : String) : Reads tokens (Parser.typeSegment text) j fun found k =>
    j ≤ k ∧ ∀ i, Shows tokens i j text → Shows tokens i k (found.getD text) := by
  refine get ?_
  split
  · rename_i dot part rest parted
    obtain ⟨first,second⟩ := Cursor.on_rest_two parted
    refine ite (fun both => ?_) fun _ => pure ⟨Nat.le_refl j,fun _ front => front⟩
    obtain ⟨dotted,named⟩ := (Bool.and_eq_true _ _).mp both
    have dotted : dot.kind = .dot := of_decide_eq_true dotted
    have named : part.kind = .ident := of_decide_eq_true named
    refine skip 2 (List.getElem?_eq_some_iff.mp second).1 (bind (typeArguments_shows plain) fun _ k behind _ => ?_)
    have order := behind.order
    refine pure ⟨by omega,fun i front => ?_⟩
    have point : "." = dot.text := String.toList_inj.mp
      ((plain dot (List.mem_of_getElem? first)).text (by decide : (['.'],Kind.dot) ∈ symbols) dotted).symm
    have own := (front.append (.one first (by simp [dotted]))).append (.one second (by simp [named]))
    simpa [point] using own.append behind
  · exact pure ⟨Nat.le_refl j,fun _ front => front⟩

theorem dimension_shows (count : Nat) : Reads tokens (Parser.dimension count) j fun found k =>
    ∀ i, Shows tokens i j (String.join (List.replicate count "[]")) →
      Shows tokens i k (String.join (List.replicate (found.getD count) "[]")) := by
  refine get ?_
  split
  · rename_i left right rest parted
    obtain ⟨first,second⟩ := Cursor.on_rest_two parted
    refine ite (fun both => ?_) fun _ => pure fun _ front => front
    obtain ⟨opened,closed⟩ := (Bool.and_eq_true _ _).mp both
    have opened : left.kind = .bracketOpen := of_decide_eq_true opened
    have closed : right.kind = .bracketClose := of_decide_eq_true closed
    refine skip 2 (List.getElem?_eq_some_iff.mp second).1 (pure fun i front => ?_)
    have pair : "[]" = left.text ++ right.text := String.toList_inj.mp (by
      rw [String.toList_append,(plain left (List.mem_of_getElem? first)).text
        (by decide : (['['],Kind.bracketOpen) ∈ symbols) opened,(plain right (List.mem_of_getElem? second)).text
        (by decide : ([']'],Kind.bracketClose) ∈ symbols) closed]
      rfl)
    have own := front.append ((Shows.one first (by simp [opened])).append (.one second (by simp [closed])))
    rw [← pair] at own
    have more : String.join (List.replicate (count + 1) "[]") = String.join (List.replicate count "[]") ++ "[]" :=
      String.toList_inj.mp (by
        rw [String.toList_append,String.toList_join,String.toList_join,List.replicate_succ',List.flatMap_append]
        rfl)
    simpa only [Option.getD_some,more] using own
  · exact pure fun _ front => front

/-- A type shows the tokens that it takes up. -/
theorem typeRef_shows : Reads tokens Parser.typeRef i fun found j => ∀ type, found = some type →
    i < j ∧ type.span = ⟨2 * i + 1,2 * j⟩ ∧ Shows tokens i j type.text := by
  refine sees (fun seen => nextStart (bind expect fun first k known bound => ?_)) fun _ => pure nofun
  rcases known with ⟨token,found,named,rfl,rfl⟩ | ⟨unseen,_⟩
  · have word : Shows tokens i (i + 1) token.text := .one found (by simp [named])
    refine bind (typeArguments_shows plain) fun arguments k behind _ => ?_
    have first := behind.order
    refine bind (repeated (fun text j => i < j ∧ Shows tokens i j text) _ ⟨by omega,word.append behind⟩
      fun text l ⟨on,front⟩ => (typeSegment_shows plain text).mono fun _ _ ⟨further,given⟩ _ =>
        ⟨Nat.lt_of_lt_of_le on further,given i front⟩) fun text l ⟨on,front⟩ inside => ?_
    have brackets : Reads tokens Parser.dimensions l fun count j =>
        Shows tokens l j (String.join (List.replicate count "[]")) :=
      repeated _ 0 (.nil inside) fun count m front =>
        (dimension_shows plain count).mono fun _ _ given _ => given l front
    refine bind brackets fun count j depth _ => spanFrom (pure fun _ same => ?_)
    cases same
    have order := Nat.lt_of_lt_of_le on depth.order
    exact ⟨order,Span.upTo_eq (by omega),front.append depth⟩
  · exact absurd seen unseen

/-- The dots of a variable number of arguments are shown, too. -/
theorem varargs_shows (type : TypeRef) (some : i < j) (span : type.span = ⟨2 * i + 1,2 * j⟩)
    (shows : Shows tokens i j type.text) : Reads tokens (Parser.varargs type) j fun type k =>
      i < k ∧ type.span = ⟨2 * i + 1,2 * k⟩ ∧ Shows tokens i k type.text := by
  refine get ?_
  split
  · rename_i a b c rest parted
    refine ite (fun all => ?_) fun _ => pure ⟨some,span,shows⟩
    simp only [Bool.and_eq_true,decide_eq_true_eq] at all
    obtain ⟨⟨first,second⟩,third⟩ := all
    have here : tokens.drop j = a :: b :: c :: rest := parted
    have found (n : Nat) : (a :: b :: c :: rest)[n]? = tokens[j + n]? := by rw [← here,List.getElem?_drop]
    have points : "..." = a.text ++ (b.text ++ c.text) := String.toList_inj.mp (by
      rw [String.toList_append,String.toList_append,
        (plain a (List.mem_of_getElem? (found 0).symm)).text (by decide : (['.'],Kind.dot) ∈ symbols) first,
        (plain b (List.mem_of_getElem? (found 1).symm)).text (by decide : (['.'],Kind.dot) ∈ symbols) second,
        (plain c (List.mem_of_getElem? (found 2).symm)).text (by decide : (['.'],Kind.dot) ∈ symbols) third]
      rfl)
    have dots := (Shows.one (found 0).symm (by simp [first])).append
      ((Shows.one (found 1).symm (by simp [second])).append (.one (found 2).symm (by simp [third])))
    refine skip 3 dots.inside (spanFrom (pure ⟨by omega,?_,?_⟩))
    · rw [span]
      exact Span.upTo_eq (by simp only; omega)
    · rw [points]
      exact shows.append dots
  · exact pure ⟨some,span,shows⟩

end

/-! The types that a file stores, caught types among them. -/

/-- Blanks between two tokens stand behind a comma or next to a bar. -/
def Spaced (first second : Piece) : Prop :=
  first.2 ≠ [] → first.1.kind = .comma ∨ first.1.kind = .pipe ∨ second.1.kind = .pipe

/-- A text is that of tokens one behind the other, with blanks or nothing between them. -/
structure Spells (own : List Token) (text lead : Text) (pieces : List Piece) : Prop where
  own : pieces.map (·.1) = own
  text : text = lead ++ written pieces
  lead : Blanks lead
  gaps : ∀ piece ∈ pieces, Blanks piece.2
  spaced : pieces.IsChain Spaced

/-- Two bars stand side by side, as where a caught type is missing between them. -/
def Doubled (own : List Token) : Prop := [Kind.pipe,Kind.pipe] <:+: own.map (·.kind)

instance (own : List Token) : Decidable (Doubled own) := inferInstanceAs (Decidable (_ <:+: _))

/-- The type takes up the tokens from number `i` to before number `j`, and shows them. -/
structure TypeRef.Stands (tokens : List Token) (i j : Nat) (type : TypeRef) : Prop where
  order : i ≤ j
  inside : j ≤ tokens.length
  span : type.span = .upTo (2 * i + 1) (2 * j)
  text : Doubled (tokens.extract i j) ∨ ∃ lead pieces, Spells (tokens.extract i j) type.text.toList lead pieces

/-- The type stands from token `i` on, and only bars follow it up to token `k`. -/
def TypeRef.Caught (tokens : List Token) (i k : Nat) (type : TypeRef) : Prop :=
  ∃ j, j ≤ k ∧ type.Stands tokens i j ∧ ∀ token ∈ tokens.extract j k, token.kind = .pipe

section

variable {tokens : List Token} {i j k : Nat} {type : TypeRef}

theorem spread_spaced (own : List Token) : (spread own).IsChain Spaced := by
  induction own with
  | nil => exact .nil
  | cons token rest ih =>
    refine ih.cons fun next _ gap => .inl ?_
    by_cases comma : token.kind = .comma
    · exact comma
    · exact absurd (if_neg comma) gap

theorem Spells.of_spread (own : List Token) : Spells own (written (spread own)) [] (spread own) where
  own := by simp [spread,Function.comp_def]
  text := rfl
  lead := nofun
  gaps := by
    intro piece listed
    obtain ⟨token,_,rfl⟩ := List.mem_map.mp listed
    simp only [Blanks]
    split <;> simp
  spaced := spread_spaced own

theorem Doubled.append {own : List Token} (doubled : Doubled own) (behind : List Token) : Doubled (own ++ behind) := by
  rw [Doubled,List.map_append]
  exact List.IsInfix.trans doubled (List.prefix_append _ _).isInfix

/-- A bar behind a type gets a blank on both sides. -/
theorem Spells.bar {own : List Token} {text lead : Text} {pieces : List Piece} {bar : Token}
    (spells : Spells own text lead pieces) (barred : bar.kind = .pipe) (spelled : bar.text.toList = ['|'])
    (other : List Token) :
    ∃ lead pieces, Spells (own ++ bar :: other) (text ++ ([' ','|',' '] ++ written (spread other))) lead pieces := by
  have blank : Blanks [' '] := by simp [Blanks]
  have behind := Spells.of_spread other
  have rest : ∀ piece ∈ (bar,[' ']) :: spread other, Blanks piece.2 := List.forall_mem_cons.mpr ⟨blank,behind.gaps⟩
  have chain : ((bar,[' ']) :: spread other).IsChain Spaced := behind.spaced.cons fun _ _ _ => .inr (.inl barred)
  have both {first second : Text} (one : Blanks first) (two : Blanks second) : Blanks (first ++ second) :=
    List.forall_mem_append.mpr ⟨one,two⟩
  obtain ⟨rfl,rfl,clear,gaps,spaced⟩ := spells
  induction pieces using List.reverseRecOn with
  | nil =>
    refine ⟨lead ++ [' '],(bar,[' ']) :: spread other,by simp [behind.own],?_,both clear blank,rest,chain⟩
    simp [spelled,written]
  | append_singleton front last _ =>
    obtain ⟨others,ended⟩ := List.forall_mem_append.mp gaps
    have ended := ended last (List.mem_singleton_self _)
    obtain ⟨before,_,next⟩ := List.isChain_append.mp spaced
    refine ⟨lead,front ++ ((last.1,last.2 ++ [' ']) :: (bar,[' ']) :: spread other),?_,?_,clear,?_,?_⟩
    · simp [behind.own]
    · simp [spelled,written]
    · exact List.forall_mem_append.mpr ⟨others,List.forall_mem_cons.mpr ⟨both ended blank,rest⟩⟩
    · refine before.append (chain.cons fun piece first _ => ?_) fun piece stood second first => ?_
      · cases first
        exact .inr (.inr barred)
      · cases first
        exact next piece stood last rfl

theorem TypeRef.Stands.of_shows (some : i < j) (span : type.span = ⟨2 * i + 1,2 * j⟩)
    (shows : Shows tokens i j type.text) : type.Stands tokens i j where
  order := shows.order
  inside := shows.inside
  span := by rw [span,Span.upTo_eq (by omega)]
  text := .inr ⟨_,_,shows.text ▸ Spells.of_spread _⟩

theorem TypeRef.Stands.missing (inside : i ≤ tokens.length) :
    TypeRef.Stands tokens i i ⟨"",.empty (2 * i + 1)⟩ where
  order := Nat.le_refl i
  inside := inside
  span := by simp [Span.empty,Span.upTo]
  text := .inr ⟨[],[],by simp [List.extract_eq_take_drop],rfl,nofun,nofun,.nil⟩

theorem TypeRef.Stands.caught (stands : type.Stands tokens i j) : type.Caught tokens i j :=
  ⟨j,Nat.le_refl j,stands,by simp [List.extract_eq_take_drop]⟩

variable (plain : ∀ token ∈ tokens, token.Plain)

include plain

theorem typeRefOrEmpty_stands : Reads tokens Parser.typeRefOrEmpty i fun type j => type.Stands tokens i j := by
  refine assume fun inside => bind (typeRef.and (typeRef_shows plain)) fun found j ⟨known,given⟩ _ => ?_
  rcases known with ⟨rfl,_,rfl⟩ | ⟨type,rfl,_⟩
  · exact nextStart (pure (.missing inside))
  · obtain ⟨some,span,shows⟩ := given type rfl
    exact pure (.of_shows some span shows)

/-- One more caught type is shown behind a bar; where it is missing, the bar is passed over. -/
theorem caughtType_stands (caught : type.Caught tokens i k) : Reads tokens (StmtLevel.caughtType type) k
    fun found m => (found.getD type).Caught tokens i m := by
  refine eat (fun ⟨bar,found,barred⟩ => ?_) fun _ => pure caught
  obtain ⟨j,on,stands,bars⟩ := caught
  have own := extract_one found
  have spelled := (plain bar (List.mem_of_getElem? found)).text (by decide : (['|'],Kind.pipe) ∈ symbols) barred
  refine bind (typeRef.and (typeRef_shows plain)) fun other m ⟨known,given⟩ _ => ?_
  rcases known with ⟨rfl,_,rfl⟩ | ⟨other,rfl,_⟩
  · refine pure ⟨j,by omega,stands,?_⟩
    rw [← extract_append on (Nat.le_succ k),own]
    exact List.forall_mem_append.mpr ⟨bars,List.forall_mem_cons.mpr ⟨barred,nofun⟩⟩
  · obtain ⟨some,span,shows⟩ := given other rfl
    have order := stands.order
    refine pure (TypeRef.Stands.caught ⟨by omega,shows.inside,?_,?_⟩)
    · rw [stands.span,span]
      rfl
    · have whole : tokens.extract i m =
          tokens.extract i j ++ (tokens.extract j k ++ (bar :: tokens.extract (k + 1) m)) := by
        rw [← List.singleton_append,← own,extract_append (Nat.le_succ k) (by omega),extract_append on (by omega),
          extract_append order (by omega)]
      rw [whole]
      rcases List.eq_nil_or_concat (tokens.extract j k) with none | ⟨front,last,ended⟩
      · rw [none,List.nil_append]
        rcases stands.text with doubled | ⟨lead,pieces,spells⟩
        · exact .inl (doubled.append _)
        · refine .inr ?_
          have behind := spells.bar barred spelled (tokens.extract (k + 1) m)
          rw [← shows.text] at behind
          simpa using behind
      · -- A bar without a type behind it stands in front of this bar.
        refine .inl ⟨(tokens.extract i j ++ front).map (·.kind),(tokens.extract (k + 1) m).map (·.kind),?_⟩
        rw [List.concat_eq_append] at ended
        rw [ended,List.forall_mem_append] at bars
        simp [ended,barred,bars.2 last (List.mem_singleton_self _)]

end

end Transplant.Java
