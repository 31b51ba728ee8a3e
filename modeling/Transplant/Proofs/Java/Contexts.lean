import Transplant.Proofs.Java.Frames
import Transplant.Proofs.Java.Seams

/-! Expressions in a context: frames one around the other. What fits into a context with a name in its place fits
with any expression in it that is no operation, a few places for primary expressions aside. Its text may then be
put in the place of the name, and the text of the whole is read as the whole with the expression in its place. -/
namespace Transplant.Java

open Token (Kind)
open ExprLevel (isCallee openers leadingOp)

/-- Both look the same to a frame around them. -/
structure Phrase.Alike (first second : Phrase) : Prop where
  rank : first.rank = second.rank
  tested : first.value.isInstanceOf = second.value.isInstanceOf
  callee : isCallee first.value = isCallee second.value
  unfilled : first.isUnfilled ↔ second.isUnfilled

namespace Frame

variable {frame : Frame} {first second plain inside : Phrase}

/-- What a place for a primary expression asks of an expression that is no operation: a prefix operator is not
counted, no member of it and no class in it is named, only what can be called is called, and to take an element of
an array that is created without any would give it another dimension. -/
def Takes (frame : Frame) (inside : Phrase) : Prop :=
  match frame with
  | .counted _ => 13 ≤ inside.rank
  | .member _ => 13 ≤ inside.rank
  | .creating _ _ => 13 ≤ inside.rank
  | .called _ => isCallee inside.value = true
  | .elementOf _ => 13 ≤ inside.rank ∧ ¬ inside.isUnfilled
  | _ => True

theorem Fits.alike (fits : frame.Fits first) (alike : first.Alike second) : frame.Fits second := by
  obtain ⟨rank,tested,callee,unfilled⟩ := alike
  cases frame <;> simp_all [Fits]

/-- A creation in a frame has arguments. -/
theorem fill_filled (frame : Frame) (inside : Phrase) : ¬ (frame.fill inside).isUnfilled := by
  rintro ⟨creates,token,last,bracket⟩
  have closed (front : List Token) (words : (frame.fill inside).words = front ++ [.parenClose]) : False := by
    rw [words,List.getLast?_concat] at last
    cases last
    cases bracket
  cases frame with
  | creating type args =>
    exact closed (inside.words ++ .dot :: word "new" :: (type.print ++ .parenOpen :: Phrase.joined args))
      (by simp [fill,before,Frame.behind])
  | created outer type front behind =>
    exact closed (before (.created outer type front behind) ++ (inside.words ++ Phrase.trailing behind))
      (by simp [fill,Frame.behind])
  | _ => cases creates

/-- A frame hides what is in it. -/
theorem fill_alike (frame : Frame) (first second : Phrase) : (frame.fill first).Alike (frame.fill second) where
  rank := by cases frame <;> rfl
  tested := by cases frame <;> rfl
  callee := by cases frame <;> rfl
  unfilled := iff_of_false (fill_filled frame first) (fill_filled frame second)

/-- Where a simple expression fits, any other one fits that is no operation, if the place takes it. -/
theorem Fits.exchange (fits : frame.Fits plain) (single : inside.value.isOperation = false) (takes : frame.Takes inside) :
    frame.Fits inside := by
  have rank : 12 ≤ inside.rank := (Expr.rank_single single).elim (fun same => Nat.le_of_eq same.symm) Nat.le_of_succ_le
  have tested : inside.value.isInstanceOf = false := by
    cases value : inside.value <;> first | rfl | simp [value,Expr.isOperation] at single
  have low (op : BinaryOp) : op.precedence + 1 < inside.rank := Nat.lt_of_le_of_lt (Nat.succ_le_succ op.precedence_le) rank
  cases frame with
  | prefixed op => exact rank
  | counted op => exact ⟨takes,fits.2⟩
  | leftOf op right => exact ⟨Nat.le_of_lt (low op),fun _ => tested,fits.2.2⟩
  | rightOf left op => exact ⟨low op,fits.2⟩
  | tested type => exact ⟨Nat.le_trans (by decide) rank,fits.2⟩
  | member name => exact ⟨takes,fits.2⟩
  | called args => exact ⟨takes,fits.2⟩
  | creating type args => exact ⟨takes,fits.2⟩
  | elementOf position => exact ⟨takes.1,takes.2,fits.2.2⟩
  | deciding yes no => exact ⟨Nat.le_trans (by decide) rank,fits.2⟩
  | otherwise condition yes => exact ⟨Nat.le_trans (by decide) rank,fits.2⟩
  | assigned op value => exact ⟨Nat.le_trans (by decide) rank,fits.2⟩
  | argument | created | elementAt | chosen | paren | assigning => exact fits

/-- In front of the open place stands punctuation, if anything, and no point. -/
theorem before_ends (frame : Frame) : ∀ token ∈ frame.before.getLast?,
    (token.text.toList,token.kind) ∈ symbols ∧ token.kind ≠ .dot := by
  have comma : (Token.comma.text.toList,Token.comma.kind) ∈ symbols ∧ Token.comma.kind ≠ .dot := by decide
  have paren : (Token.parenOpen.text.toList,Token.parenOpen.kind) ∈ symbols ∧ Token.parenOpen.kind ≠ .dot := by decide
  have args (words : List Token) (front : List Phrase) : ∀ token ∈ (words ++ .parenOpen :: Phrase.leading front).getLast?,
      (token.text.toList,token.kind) ∈ symbols ∧ token.kind ≠ .dot := by
    intro token last
    rcases List.eq_nil_or_concat front with rfl | ⟨others,arg,rfl⟩
    · obtain rfl : Token.parenOpen = token := by simpa [Phrase.leading] using last
      exact paren
    · obtain rfl : Token.comma = token := by simpa [Phrase.leading,List.getLast?_append,List.getLast?_cons] using last
      exact comma
  have one (words : List Token) (mark : Token) (symbol : (mark.text.toList,mark.kind) ∈ symbols ∧ mark.kind ≠ .dot) :
      ∀ token ∈ (words ++ [mark]).getLast?, (token.text.toList,token.kind) ∈ symbols ∧ token.kind ≠ .dot := by
    intro token last
    rw [List.getLast?_concat] at last
    exact Option.some.inj last ▸ symbol
  cases frame with
  | prefixed op => exact one [] op.token (by cases op <;> decide)
  | rightOf left op => exact one left.words op.token (by cases op <;> decide)
  | argument callee front _ => exact args callee.words front
  | created outer type front _ =>
    rw [before,← List.cons_append,← List.append_assoc]
    exact args _ front
  | elementAt array => exact one array.words .bracketOpen (by decide)
  | chosen condition _ => exact one condition.words .question (by decide)
  | otherwise condition yes =>
    rw [before,← List.cons_append,← List.append_assoc]
    exact one _ .colon (by decide)
  | paren => exact one [] .parenOpen (by decide)
  | assigning target op => exact one target.words op.token (by cases op <;> decide)
  | counted | leftOf | tested | member | called | creating | elementOf | deciding | assigned =>
    intro token last
    cases last

/-- A point behind the open place stands in front of a word. -/
theorem behind_begins (frame : Frame) : ∀ token rest, frame.behind = token :: rest → token.kind = .dot →
    ∃ next ∈ rest.head?, next.kind = .ident := by
  have trailing (args : List Phrase) : ∀ token rest,
      Phrase.trailing args ++ [.parenClose] = token :: rest → token.kind ≠ .dot := by
    rintro token rest same
    cases args with
    | nil =>
      obtain ⟨rfl,_⟩ := List.cons.inj same
      decide
    | cons arg args =>
      obtain ⟨rfl,_⟩ := List.cons.inj same
      decide
  intro token rest same dot
  cases frame with
  | member name =>
    obtain ⟨rfl,rfl⟩ := List.cons.inj same
    exact ⟨_,rfl,rfl⟩
  | creating type args =>
    obtain ⟨rfl,rfl⟩ := List.cons.inj same
    exact ⟨_,rfl,rfl⟩
  | argument _ _ behind => exact absurd dot (trailing behind _ _ same)
  | created _ _ _ behind => exact absurd dot (trailing behind _ _ same)
  | prefixed | rightOf | otherwise | assigning => cases same
  | counted op | leftOf op | assigned op =>
    obtain ⟨rfl,_⟩ := List.cons.inj same
    cases op <;> cases dot
  | tested | called | elementOf | elementAt | deciding | chosen | paren =>
    obtain ⟨rfl,_⟩ := List.cons.inj same
    cases dot

end Frame

/-- The text is read as the expression, and nothing of it is left. -/
structure Expr.MeantBy (text : Text) (e : Expr) : Prop where
  same : (parseExpr text).bare = e.bare
  whole : (Parser.expr ⟨0,(tokens text).map (·.token)⟩).2.rest = []

/-- Frames one around the other, the innermost first. -/
abbrev Context := List Frame

namespace Context

/-- The tokens in front of the open part. -/
def before : Context → List Token
  | [] => []
  | frame :: around => before around ++ frame.before

/-- The tokens behind the open part. -/
def behind : Context → List Token
  | [] => []
  | frame :: around => frame.behind ++ behind around

/-- The whole with the expression in the open part. -/
def build (inside : Expr) : Context → Expr
  | [] => inside
  | frame :: around => build (frame.build inside) around

def fill (inside : Phrase) : Context → Phrase
  | [] => inside
  | frame :: around => fill (frame.fill inside) around

/-- Every frame fits what is in it. -/
def Fits (inside : Phrase) : Context → Prop
  | [] => True
  | frame :: around => frame.Fits inside ∧ Fits (frame.fill inside) around

theorem fill_eq (context : Context) (inside : Phrase) :
    context.fill inside = ⟨context.before ++ (inside.words ++ context.behind),context.build inside.value⟩ := by
  induction context generalizing inside with
  | nil => simp [fill,before,behind,build]
  | cons frame around ih => simp [fill,before,behind,build,ih,Frame.fill]

/-- A firm phrase in frames that fit makes a firm whole. -/
theorem firm {context : Context} {inside : Phrase} (first : inside.Firm) (fits : context.Fits inside) :
    (context.fill inside).Firm := by
  induction context generalizing inside with
  | nil => exact first
  | cons frame around ih => exact ih (Frame.firm first fits.1) fits.2

/-- The tokens of the context, with those of the phrase in it, are read as the whole expression. -/
theorem read {context : Context} {inside : Phrase} (first : inside.Firm) (fits : context.Fits inside) :
    ∃ t : Expr, t.bare = (context.build inside.value).bare ∧
      Parser.expr ⟨0,context.before ++ (inside.words ++ context.behind)⟩ =
        (t,⟨(context.before ++ (inside.words ++ context.behind)).length,[]⟩) := by
  obtain ⟨t,same,ran⟩ := (firm first fits).expr 0
  have whole := ran [] (.nil 0)
  rw [List.append_nil,Nat.zero_add] at whole
  rw [fill_eq] at same whole
  exact ⟨t,same,whole⟩

/-! Exchanging what is in the open place. -/

theorem Fits.alike {context : Context} {first second : Phrase} (fits : context.Fits first) (alike : first.Alike second) :
    context.Fits second := by
  induction context generalizing first second with
  | nil => trivial
  | cons frame around ih => exact ⟨fits.1.alike alike,ih fits.2 (frame.fill_alike first second)⟩

/-- Where a simple expression fits, any other one fits that is no operation, if the innermost frame takes it. -/
theorem Fits.exchange {context : Context} {plain inside : Phrase} (fits : context.Fits plain)
    (single : inside.value.isOperation = false) (takes : ∀ frame ∈ context.head?, frame.Takes inside) :
    context.Fits inside := by
  cases context with
  | nil => trivial
  | cons frame around => exact ⟨fits.1.exchange single (takes frame rfl),fits.2.alike (frame.fill_alike plain inside)⟩

theorem before_ends (context : Context) : ∀ token ∈ context.before.getLast?,
    (token.text.toList,token.kind) ∈ symbols ∧ token.kind ≠ .dot := by
  induction context with
  | nil => nofun
  | cons frame around ih =>
    intro token last
    rw [before,List.getLast?_append] at last
    cases ends : frame.before.getLast? with
    | none => exact ih token (by simpa [ends] using last)
    | some other => exact frame.before_ends token (by simpa [ends] using last)

theorem behind_begins (context : Context) : ∀ token rest, context.behind = token :: rest → token.kind = .dot →
    ∃ next ∈ rest.head?, next.kind = .ident := by
  induction context with
  | nil => nofun
  | cons frame around ih =>
    intro token rest same dot
    rw [behind] at same
    cases own : frame.behind with
    | nil => exact ih token rest (by simpa [own] using same) dot
    | cons first others =>
      rw [own,List.cons_append] at same
      obtain ⟨rfl,rfl⟩ := List.cons.inj same
      obtain ⟨next,head,word⟩ := frame.behind_begins first others own dot
      obtain ⟨others,rfl⟩ := List.head?_eq_some_iff.mp head
      exact ⟨next,rfl,word⟩

/-- A name may stand in the open place. -/
def Admits (context : Context) : Prop := context.Fits ⟨[word "it"],.name "it" (.empty 0)⟩

/-! Texts of a context. -/

/-- The two texts stand in front of the open place and behind it: with a word between, they are cut into the tokens
of the context around this word. -/
def Written (context : Context) (pre post : Text) : Prop := ∃ name front back,
  tokens (pre ++ (name ++ post)) =
    front ++ ⟨word (String.ofList name),⟨pre.size,pre.size + Text.size name⟩⟩ :: back ∧
    front.map (·.token) = context.before ∧ back.map (·.token) = context.behind

/-- It is enough to cut the texts once, with any word between them. -/
theorem Written.of_cut {context : Context} {pre post : Text} (name : Text) (count : Nat)
    (cut : (tokens (pre ++ (name ++ post)))[count]? =
      some ⟨word (String.ofList name),⟨pre.size,pre.size + Text.size name⟩⟩)
    (ahead : ((tokens (pre ++ (name ++ post))).take count).map (·.token) = context.before)
    (behind : ((tokens (pre ++ (name ++ post))).drop (count + 1)).map (·.token) = context.behind) :
    context.Written pre post := by
  obtain ⟨inside,found⟩ := List.getElem?_eq_some_iff.mp cut
  refine ⟨name,_,_,?_,ahead,behind⟩
  rw [← found,← List.drop_eq_getElem_cons,List.take_append_drop]

/-- A sign stands in front of the open place, and the text begins with the same sign. -/
def Glues (context : Context) (pre inside : Text) : Prop := ∃ sign ∈ ['+','-'],
  (∃ token ∈ context.before.getLast?, token.text.toList = [sign]) ∧ pre.getLast? = some sign ∧ inside.head? = some sign

variable {context : Context} {pre post inside : Text} {phrase : Phrase} {more : List Token} {list : List PlacedToken}
  {start stop : Nat}

/-- The text of a whole expression in the place of a word gives the tokens of the context around those of the
expression. -/
theorem Written.replaced (written : context.Written pre post) (whole : phrase.Whole more)
    (scanned : Scanned start inside list stop []) (begins : ∃ first ∈ list.head?, first.span.start = start)
    (words : list.map (·.token) = phrase.words) (apart : ¬ context.Glues pre inside) :
    (tokens (pre ++ (inside ++ post))).map (·.token) = context.before ++ (phrase.words ++ context.behind) := by
  obtain ⟨name,front,back,cut,ahead,behind⟩ := written
  obtain ⟨part,gap,rfl,before,passed,_,own,rfl⟩ := parts_of_token cut
  have point : ∀ d more, post = '.' :: d :: more → d.isDigit = false := by
    rintro d more rfl
    refine Bool.eq_false_iff.mpr fun digit => ?_
    obtain ⟨second,others,same,number⟩ := @tokensFrom_point d more ((part ++ gap).size + Text.size name) digit
    obtain ⟨next,head,word⟩ := context.behind_begins _ _ (behind.symm.trans same) rfl
    cases head
    rw [word] at number
    cases number
  have closes : ∀ last ∈ list.getLast?, last.token.kind ≠ .dot ∧ last.token.CutBefore post := by
    intro last ended
    obtain ⟨token,found,closes⟩ := whole.closes
    rw [← words,List.getLast?_map,ended] at found
    obtain rfl := Option.some.inj found
    exact ⟨closes.apart.1,closes.cutBefore (scanned.last last ended).2 (own.stops rfl) point⟩
  obtain ⟨_,same,_,again,_⟩ := scanned.before (fun last ended => (closes last ended).2) fun last ended dot =>
    absurd dot (closes last ended).1
  rw [List.append_nil] at same
  subst same
  have all := tokens_replaced cut again begins fun last ended => ?_
  · rw [ahead,words,behind] at all
    exact all
  · obtain ⟨symbol,plain⟩ := context.before_ends last.token (by rw [← ahead,List.getLast?_map,ended]; rfl)
    refine ⟨plain,fun near => ?_⟩
    obtain ⟨token,others,opened,opens⟩ := whole.opens
    obtain ⟨first,head,_,begun,_⟩ := scanned.first begins
    obtain ⟨_,head',rest,both,first'⟩ := again.first begins
    obtain rfl := Option.some.inj (head.symm.trans head')
    obtain rfl : first.token = token := by
      rw [opened] at words
      have same := congrArg List.head? words
      rw [List.head?_map,show list.head? = some first from head] at same
      exact Option.some.inj same
    rw [both]
    refine .ahead symbol first' (opens.imp_right And.left) fun sign member alone signed =>
      apart ⟨sign,member,⟨_,?_,alone⟩,?_,?_⟩
    · rw [← ahead,List.getLast?_map,ended]
      rfl
    · obtain rfl : gap = [] := by
        refine Text.eq_nil_of_size _ ?_
        rw [(before.last last ended).1,Text.size_append] at near
        omega
      obtain ⟨front,same⟩ := before.last_suffix last ended
      rw [alone,← List.append_assoc] at same
      rw [List.append_nil,← List.append_cancel_right same,List.getLast?_concat]
    · obtain ⟨c,taken,spelled⟩ := List.exists_cons_of_ne_nil first'.spelled
      rw [begun,spelled]
      rwa [spelled] at signed

/-- A whole expression that is no operation may take the place of a name: the text is read as the context around it. -/
theorem Written.filled (written : context.Written pre post) (admits : context.Admits) (whole : phrase.Whole more)
    (takes : ∀ frame ∈ context.head?, frame.Takes phrase) (scanned : Scanned start inside list stop [])
    (begins : ∃ first ∈ list.head?, first.span.start = start) (words : list.map (·.token) = phrase.words)
    (apart : ¬ context.Glues pre inside) : (context.build phrase.value).MeantBy (pre ++ (inside ++ post)) := by
  have cut := written.replaced whole scanned begins words apart
  obtain ⟨t,same,read⟩ := Context.read whole.firm (Fits.exchange admits whole.single takes)
  rw [← cut] at read
  refine ⟨?_,congrArg (·.2.rest) read⟩
  rw [parseExpr,readText,read]
  exact ((Expr.mapSpans_bare _).1 t).trans same

end Context
end Transplant.Java
