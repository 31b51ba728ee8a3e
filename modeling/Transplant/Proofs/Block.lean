import Transplant.Proofs.Donor.Cut
import Transplant.Proofs.Java.Respaced

/-! Blocks of lines and the Java in them. Moving a block to the left and joining its lines by
another break writes the breaks of the text anew, which keeps its tokens. -/
namespace Transplant

open Java (isLineEnd isLineEnd_iff Respaced Breaks)

namespace Text

/-- No line end stands in the text. -/
def InLine (text : Text) : Prop := text.any isLineEnd = false

instance (text : Text) : Decidable (InLine text) := inferInstanceAs (Decidable (_ = _))

/-- A line moved within its indentation. A blank line is nothing else, so it may be emptied. -/
def Shifted (line moved : Text) : Prop :=
  ∃ indent other shown : Text, isBlank indent = true ∧ isBlank other = true ∧ InLine other ∧
    line = indent ++ shown ∧ moved = other ++ shown

variable {c : Char} {text line rest shifted : Text} {others : List Text} {lineBreak : LineBreak}

theorem inLine_append : InLine (text ++ rest) ↔ InLine text ∧ InLine rest := by
  simp only [InLine,List.any_append,Bool.or_eq_false_iff]

theorem inLine_cons : InLine (c :: text) ↔ isLineEnd c = false ∧ InLine text := by
  simp only [InLine,List.any_cons,Bool.or_eq_false_iff]

section Lines

theorem lines_break (lineBreak : LineBreak) : lines lineBreak.text = [[]] := by
  cases lineBreak <;> rfl

theorem lines_broken (lineBreak : LineBreak) (more : rest ≠ [])
    (whole : lineBreak = .cr → rest.head? ≠ some '\n') :
    lines (lineBreak.text ++ rest) = [] :: lines rest := by
  obtain ⟨c,rest,rfl⟩ := List.exists_cons_of_ne_nil more
  cases lineBreak with
  | lf =>
    rw [LineBreak.text,List.cons_append,List.nil_append,lines]
    simp
  | crLf =>
    rw [LineBreak.text,List.cons_append,List.cons_append,List.nil_append,lines]
    simp
  | cr =>
    have other : c ≠ '\n' := by simpa using whole rfl
    rw [LineBreak.text,List.cons_append,List.nil_append,lines]
    all_goals simp [other]

theorem lines_plain (inLine : isLineEnd c = false) (parted : lines rest = line :: others) :
    lines (c :: rest) = (c :: line) :: others := by
  have feed : c ≠ '\n' := by rintro rfl; cases inLine
  have back : c ≠ '\r' := by rintro rfl; cases inLine
  rw [lines,parted]
  · rfl
  all_goals simp [feed,back]

/-- A text is nothing, a break at its end, a break before more text, or a character of a line. -/
theorem lines_induct {motive : Text → Prop} (nil : motive [])
    (ended : ∀ lineBreak : LineBreak, motive lineBreak.text)
    (broken : ∀ (lineBreak : LineBreak) (rest : Text), rest ≠ [] →
      (lineBreak = .cr → rest.head? ≠ some '\n') → motive rest → motive (lineBreak.text ++ rest))
    (plain : ∀ c rest, isLineEnd c = false → motive rest → motive (c :: rest)) (text : Text) :
    motive text := by
  fun_induction lines text with
  | case1 => exact nil
  | case2 => exact ended .lf
  | case3 rest more ih => exact broken .lf rest more nofun ih
  | case4 => exact ended .crLf
  | case5 rest more ih => exact broken .crLf rest more nofun ih
  | case6 => exact ended .cr
  | case7 rest _ whole more ih =>
    refine broken .cr rest more (fun _ first => ?_) ih
    obtain ⟨rest,rfl⟩ := List.head?_eq_some_iff.mp first
    exact whole rest rfl
  | case8 c rest _ feed _ _ _ back ih =>
    refine plain c rest ?_ ih
    simpa [isLineEnd] using ⟨feed,back⟩

theorem lines_nonempty (text : Text) : ∃ line rest, lines text = line :: rest := by
  induction text using lines_induct with
  | nil => exact ⟨_,_,rfl⟩
  | ended lineBreak => exact ⟨_,_,lines_break lineBreak⟩
  | broken lineBreak rest more whole => exact ⟨_,_,lines_broken lineBreak more whole⟩
  | plain c rest inLine ih =>
    obtain ⟨line,others,parted⟩ := ih
    exact ⟨_,_,lines_plain inLine parted⟩

theorem lines_inLine (text : Text) : ∀ line ∈ lines text, InLine line := by
  induction text using lines_induct with
  | nil => decide
  | ended lineBreak => rw [lines_break]; decide
  | broken lineBreak rest more whole ih =>
    rw [lines_broken lineBreak more whole]
    exact List.forall_mem_cons.mpr ⟨by decide,ih⟩
  | plain c rest inLine ih =>
    obtain ⟨line,others,parted⟩ := lines_nonempty rest
    rw [parted,List.forall_mem_cons] at ih
    rw [lines_plain inLine parted,List.forall_mem_cons]
    exact ⟨inLine_cons.mpr ⟨inLine,ih.1⟩,ih.2⟩

/-- What stands in front of the first break is the first line. -/
theorem lines_head (inLine : InLine line) (breaks : Breaks rest) :
    (lines (line ++ rest)).head? = some line := by
  induction line with
  | nil =>
    induction rest using lines_induct with
    | nil => rfl
    | ended lineBreak => rw [List.nil_append,lines_break]; rfl
    | broken lineBreak rest more whole => rw [List.nil_append,lines_broken lineBreak more whole]; rfl
    | plain c rest plain => exact absurd rfl (breaks.head_ne plain)
  | cons c line ih =>
    obtain ⟨plain,inLine⟩ := inLine_cons.mp inLine
    obtain ⟨first,others,parted⟩ := lines_nonempty (line ++ rest)
    have behind := ih inLine
    rw [parted] at behind
    obtain rfl := Option.some.inj behind
    rw [List.cons_append,lines_plain plain parted,List.head?_cons]

theorem join_cons (separator line : Text) (others : List Text) :
    join separator (line :: others) = line ++ others.flatMap (separator ++ ·) := by
  induction others generalizing line with
  | nil => simp [join]
  | cons other others ih => rw [join,ih,List.flatMap_cons,List.append_assoc,List.append_assoc]; simp

end Lines

section Indentation

theorem Shifted.refl (line : Text) : Shifted line line :=
  ⟨[],[],line,rfl,rfl,rfl,rfl,rfl⟩

theorem trimFrom_shifted (tabWidth columns column : Nat) (line : Text) :
    Shifted line (trimFrom tabWidth columns column line) := by
  have indentation {c : Char} {column width : Nat} (wide : (if c = ' ' then some 1
      else if c = '\t' then some (tabColumns tabWidth column) else none) = some width) :
      isSpace c = true := by
    split at wide
    · subst c
      rfl
    · split at wide
      · subst c
        rfl
      · cases wide
  fun_induction trimFrom tabWidth columns column line with
  | case1 => exact .refl []
  | case2 column c rest reached => exact .refl _
  | case3 column c rest => exact .refl _
  | case4 column c rest _ _ width wide =>
    refine ⟨[c],_,rest,?_,?_,?_,rfl,rfl⟩
    · rw [isBlank,List.all_cons,indentation wide]
      rfl
    · exact List.all_eq_true.mpr fun d member => by rw [List.eq_of_mem_replicate member]; rfl
    · exact List.any_eq_false.mpr fun d member => by rw [List.eq_of_mem_replicate member]; decide
  | case5 column c rest _ _ width wide _ ih =>
    obtain ⟨indent,other,shown,blank,otherBlank,inLine,rfl,moved⟩ := ih
    refine ⟨c :: indent,other,shown,?_,otherBlank,inLine,rfl,moved⟩
    rw [isBlank,List.all_cons,indentation wide]
    exact blank

theorem shiftLeft_shifted (layout : Layout) (lines : List Text) :
    List.Forall₂ Shifted lines (shiftLeft layout lines) := by
  rw [shiftLeft,List.forall₂_map_right_iff,List.forall₂_same]
  intro line _
  split
  · exact ⟨line,[],[],by assumption,rfl,rfl,(List.append_nil line).symm,rfl⟩
  · exact trimFrom_shifted _ _ _ line

theorem Shifted.all_inLine {lines moved : List Text} (shifted : List.Forall₂ Shifted lines moved)
    (inLine : ∀ line ∈ lines, InLine line) : ∀ line ∈ moved, InLine line := by
  induction shifted with
  | nil => exact nofun
  | cons first _ ih =>
    obtain ⟨indent,other,shown,_,_,otherInLine,rfl,rfl⟩ := first
    obtain ⟨own,others⟩ := List.forall_mem_cons.mp inLine
    exact List.forall_mem_cons.mpr ⟨inLine_append.mpr ⟨otherInLine,(inLine_append.mp own).2⟩,ih others⟩

end Indentation

end Text

namespace Java.Respaced

variable {text line right : Text}

/-- A text that becomes a line and more begins with this line. -/
theorem strip (respaced : Respaced text (line ++ right)) (inLine : Text.InLine line) :
    ∃ left, text = line ++ left ∧ Respaced left right := by
  induction line generalizing text with
  | nil => exact ⟨text,rfl,respaced⟩
  | cons c line ih =>
    obtain ⟨plain,inLine⟩ := Text.inLine_cons.mp inLine
    obtain ⟨rest,rfl,inner⟩ := respaced.tail_left plain
    obtain ⟨left,rfl,behind⟩ := ih inner inLine
    exact ⟨left,rfl,behind⟩

/-- Shifting all lines but the first and joining them by any break writes the breaks anew. -/
theorem of_shifted (lineBreak : LineBreak) (text : Text) {line : Text} {others moved : List Text}
    (parted : text.lines = line :: others) (shifted : List.Forall₂ Text.Shifted others moved) :
    Respaced text (Text.join lineBreak.text (line :: moved)) := by
  have blanks (lineBreak : LineBreak) : ∃ c rest, lineBreak.text = c :: rest ∧ isLineEnd c = true ∧
      rest.all Text.isSpace = true := by
    cases lineBreak <;> exact ⟨_,_,rfl,by decide,by decide⟩
  induction text using Text.lines_induct generalizing line others moved with
  | nil =>
    cases parted
    cases shifted
    exact .nil
  | ended given =>
    rw [Text.lines_break] at parted
    cases parted
    cases shifted
    obtain ⟨c,rest,same,ended,blank⟩ := blanks given
    rw [same]
    exact .ended ended blank
  | broken given rest more whole ih =>
    rw [Text.lines_broken given more whole] at parted
    obtain ⟨rfl,rfl⟩ := List.cons.inj parted
    obtain ⟨next,behind,nextParted⟩ := Text.lines_nonempty rest
    have inLine := Text.lines_inLine rest next (by simp [nextParted])
    rw [nextParted] at shifted
    cases shifted with
    | cons first shifted =>
      obtain ⟨indent,other,shown,blank,otherBlank,_,rfl,rfl⟩ := first
      have inner := ih nextParted shifted
      rw [Text.join_cons,List.append_assoc] at inner
      obtain ⟨left,rfl,behind⟩ := inner.strip (Text.inLine_append.mp inLine).1
      obtain ⟨c,front,same,ended,space⟩ := blanks given
      obtain ⟨d,back,joined,otherEnded,otherSpace⟩ := blanks lineBreak
      have gap : (front ++ indent).all Text.isSpace = true := by
        rw [List.all_append,space]
        exact blank
      have otherGap : (back ++ other).all Text.isSpace = true := by
        rw [List.all_append,otherSpace]
        exact otherBlank
      have made := Respaced.broken ended otherEnded gap otherGap behind
      rw [Text.join_cons,List.flatMap_cons,same,joined]
      simpa only [joined,List.append_assoc,List.cons_append,List.nil_append] using made
  | plain c rest inLine ih =>
    obtain ⟨next,behind,nextParted⟩ := Text.lines_nonempty rest
    rw [Text.lines_plain inLine nextParted] at parted
    obtain ⟨rfl,rfl⟩ := List.cons.inj parted
    have inner := ih nextParted shifted
    rw [Text.join_cons] at inner ⊢
    exact .keep inLine inner

end Java.Respaced

namespace Block

variable {layout : Layout} {lineBreak : LineBreak} {part : Text}

/-- A block is the first line of its part of the text, and the others shifted. -/
theorem ofPart_shifted (layout : Layout) (lineBreak : LineBreak) (part : Text) :
    ∃ line others moved, part.lines = line :: others ∧ List.Forall₂ Text.Shifted others moved ∧
      ofPart layout lineBreak part = Text.join lineBreak.text (line :: moved) := by
  obtain ⟨line,others,parted⟩ := Text.lines_nonempty part
  refine ⟨line,others,_,parted,Text.shiftLeft_shifted layout others,?_⟩
  rw [ofPart,parted,Text.trimIndentation,if_neg Bool.false_ne_true]

theorem ofPart_tokens (layout : Layout) (lineBreak : LineBreak) (part : Text)
    (unbroken : ∀ token ∈ Java.tokens part, token.token.Unbroken) :
    (Java.tokens (ofPart layout lineBreak part)).map (·.token) =
      (Java.tokens part).map (·.token) := by
  obtain ⟨line,others,moved,parted,shifted,made⟩ := ofPart_shifted layout lineBreak part
  have respaced := Java.Respaced.of_shifted lineBreak part parted shifted
  rw [made]
  exact (respaced.tokensFrom 0 0 unbroken).symm

theorem ofPart_lines (layout : Layout) (lineBreak : LineBreak) (part : Text) :
    (∃ lines : List Text, (∀ line ∈ lines, line.InLine) ∧
      ofPart layout lineBreak part = Text.join lineBreak.text lines) ∧
    (ofPart layout lineBreak part).lines.head? = part.lines.head? := by
  obtain ⟨line,others,moved,parted,shifted,made⟩ := ofPart_shifted layout lineBreak part
  have inLine := Text.lines_inLine part
  rw [parted,List.forall_mem_cons] at inLine
  refine ⟨⟨line :: moved,?_,made⟩,?_⟩
  · exact List.forall_mem_cons.mpr ⟨inLine.1,Text.Shifted.all_inLine shifted inLine.2⟩
  · have breaks : Breaks (moved.flatMap (lineBreak.text ++ ·)) := by
      cases moved with
      | nil => exact nofun
      | cons => cases lineBreak <;> simp [Breaks,LineBreak.text,isLineEnd]
    rw [made,Text.join_cons,Text.lines_head inLine.1 breaks,parted]
    rfl

/-- Moving blocks to the left changes no code. The blocks of all spans that lie in the text and
split no character can be cut out; each has the tokens of its span, unless a literal runs across a
line break, no line breaks but the snapshot's own, and the first line as it was. -/
theorem extractAll_tokens (layout : Layout) (snapshot : Snapshot) (spans : List Span)
    (cuts : ∀ span ∈ spans, span.start ≤ span.stop ∧ snapshot.text.isBoundary span.start = true ∧
      snapshot.text.isBoundary span.stop = true) :
    ∃ blocks, extractAll layout snapshot spans = .ok blocks ∧
      List.Forall₂ (fun span block => ∃ part, snapshot.slice span = .ok part ∧
        ((∀ token ∈ Java.tokens part, token.token.Unbroken) →
          (Java.tokens block).map (·.token) = (Java.tokens part).map (·.token)) ∧
        (∃ lines : List Text, (∀ line ∈ lines, line.InLine) ∧
          block = Text.join snapshot.lineBreak.text lines) ∧
        block.lines.head? = part.lines.head?) spans blocks := by
  have sliced : ∀ span ∈ spans, snapshot.slice span =
      .ok (snapshot.text.between span.start span.stop) := by
    intro span member
    obtain ⟨order,atStart,atStop⟩ := cuts span member
    have inside := snapshot.text.le_size_of_isBoundary _ atStop
    rw [Snapshot.slice,if_neg (Nat.not_lt.mpr inside),Text.slice?_eq_some _ _ order atStart atStop]
  let block (span : Span) : Text :=
    ofPart layout snapshot.lineBreak (snapshot.text.between span.start span.stop)
  refine ⟨spans.map block,mapM_eq_ok_of_forall₂ _ _ _ ?_,?_⟩
  · rw [List.forall₂_map_right_iff,List.forall₂_same]
    intro span member
    simp only [extract,sliced span member,bind,Except.bind,pure,Except.pure]
    rfl
  · rw [List.forall₂_map_right_iff,List.forall₂_same]
    intro span member
    obtain ⟨lines,first⟩ := ofPart_lines layout snapshot.lineBreak
      (snapshot.text.between span.start span.stop)
    exact ⟨_,sliced span member,ofPart_tokens _ _ _,lines,first⟩

/-- A statement over lines that are indented by tabs and spaces, one of them blank. -/
def indented : Snapshot := ⟨"  if (a) \x7b\n\t\t// b\n \n\t  c(\"d\"); \x7d".toList,.crLf⟩

theorem extractAll_tokens_indented : ∃ part block, indented.slice ⟨2,32⟩ = .ok part ∧
    block = "if (a) \x7b\r\n\t// b\r\n\r\n  c(\"d\"); \x7d".toList ∧
    extractAll .standard indented [⟨2,32⟩] = .ok [block] ∧
    (Java.tokens block).map (·.token) = (Java.tokens part).map (·.token) := by
  obtain ⟨blocks,done,related⟩ := extractAll_tokens .standard indented [⟨2,32⟩] (by decide)
  have evaluated : extractAll .standard indented [⟨2,32⟩] =
      .ok ["if (a) \x7b\r\n\t// b\r\n\r\n  c(\"d\"); \x7d".toList] := by decide +kernel
  obtain rfl := Except.ok.inj (evaluated.symm.trans done)
  obtain ⟨⟨part,sliced,same,_⟩,_⟩ := List.forall₂_cons.mp related
  have whole : indented.slice ⟨2,32⟩ = .ok (indented.text.between 2 32) := by decide +kernel
  obtain rfl := Except.ok.inj (whole.symm.trans sliced)
  exact ⟨_,_,sliced,rfl,done,same (by decide +kernel)⟩

end Block

end Transplant
