import Transplant.Proofs.Java.Boundaries
import Transplant.Proofs.Java.Members

/-! Where the parts of a parsed text stand. The boundaries that were read between are looked up in
the text: they are offsets of whole characters, and tokens keep their order and their length. -/
namespace Transplant

/-- The text can be cut at both ends of the span. -/
structure Text.Cuts (text : Text) (span : Span) : Prop where
  order : span.start ≤ span.stop
  inside : span.stop ≤ text.size
  atStart : text.isBoundary span.start = true
  atStop : text.isBoundary span.stop = true
  sliced : ∃ part, text.slice? span = some part

/-- The parts take up something each, inside the span and one behind the other. -/
structure Span.Surrounds (around : Span) (parts : List Span) : Prop where
  lasting : ∀ part ∈ parts, part.start < part.stop
  inside : ∀ part ∈ parts, around.contains part = true
  ascending : parts.Pairwise fun first second => first.stop ≤ second.start

theorem Text.Cuts.of_boundaries {text : Text} {span : Span} (order : span.start ≤ span.stop)
    (atStart : text.isBoundary span.start = true) (atStop : text.isBoundary span.stop = true) :
    text.Cuts span :=
  ⟨order,text.le_size_of_isBoundary _ atStop,atStart,atStop,_,text.slice?_eq_some span order atStart atStop⟩

/-- An empty part can be cut out at the end of any other one. -/
theorem Text.Cuts.behind {text : Text} {span : Span} (cuts : text.Cuts span) :
    text.Cuts (.empty span.stop) := .of_boundaries (Nat.le_refl _) cuts.atStop cuts.atStop

namespace Java

theorem Row.part {parts : List Span} {i j : Nat} (row : Row parts i j) :
    ∀ part ∈ parts, ∃ k l, i ≤ k ∧ k < l ∧ l ≤ j ∧ part = ⟨2 * k + 1,2 * l⟩ := by
  induction row with
  | nil => nofun
  | @cons span rest i k l j low before place others ih =>
    intro part member
    rcases List.mem_cons.mp member with rfl | member
    · exact ⟨k,l,low,before,others.le,place⟩
    · obtain ⟨a,b,further,order,high,same⟩ := ih part member
      exact ⟨a,b,by omega,order,high,same⟩

theorem Row.ascending {parts : List Span} {i j : Nat} (row : Row parts i j) :
    parts.Pairwise fun first second => first.stop ≤ second.start := by
  induction row with
  | nil => exact .nil
  | cons low before place others ih =>
    refine List.pairwise_cons.mpr ⟨fun part member => ?_,ih⟩
    obtain ⟨a,b,further,_,_,rfl⟩ := others.part part member
    rw [place]
    simp only
    omega

section

variable {text : Text} {span : Span}

theorem Fits.cuts (fits : Fits (tokens text).length span) : text.Cuts (span.map (offset text)) :=
  .of_boundaries (offset_mono text fits.order fits.known) (offset_isBoundary text _)
    (offset_isBoundary text _)

theorem contains_map {inner : Span} (contains : span.contains inner = true)
    (fits : Fits (tokens text).length span) (within : Fits (tokens text).length inner) :
    (span.map (offset text)).contains (inner.map (offset text)) = true := by
  rw [Span.contains_iff] at contains ⊢
  exact ⟨offset_mono text contains.1 within.start_known,offset_mono text contains.2 fits.known⟩

theorem Covers.surrounds {parts : List Span} (covers : Covers ((tokens text).map (·.token)) span parts) :
    (span.map (offset text)).Surrounds (parts.map (Span.map (offset text))) := by
  obtain ⟨fits,i,j,bound,low,high,row⟩ := covers
  rw [List.length_map] at fits bound
  refine ⟨?_,?_,?_⟩
  · rw [List.forall_mem_map]
    intro part member
    obtain ⟨k,l,_,before,far,rfl⟩ := row.part part member
    exact TokenBetween.offset_lt ⟨k,by omega,Nat.le_refl _,show 2 * k + 2 ≤ 2 * l by omega⟩
      (show 2 * l ≤ _ by omega)
  · rw [List.forall_mem_map]
    intro part member
    obtain ⟨k,l,further,before,far,rfl⟩ := row.part part member
    have contained : span.contains ⟨2 * k + 1,2 * l⟩ = true := by
      rw [Span.contains_iff]
      exact ⟨by simp only; omega,by simp only; omega⟩
    exact contains_map contained fits ⟨show 2 * k + 1 ≤ 2 * l by omega,show 2 * l ≤ _ by omega⟩
  · rw [List.pairwise_map]
    refine row.ascending.imp_of_mem fun _ behind order => offset_mono text order ?_
    obtain ⟨k,l,_,before,far,rfl⟩ := row.part _ behind
    simp only
    omega

end

/-- Everything that the tree of a text stores has its place in the text. -/
structure CompilationUnit.LiesIn (text : Text) (file : CompilationUnit) : Prop where
  spans : ∀ span ∈ file.spans, text.Cuts span
  blocks : ∀ b ∈ file.blocks, b.span.Surrounds (b.statements.map Stmt.span)
  members : ∀ type ∈ file.allTypes, type.bodySpan.Surrounds (type.members.map Member.span)
  methods : ∀ member ∈ file.members, member.AroundBody

variable (text : Text)

theorem parse_read : parse text =
    (Parser.compilationUnit (.on ((tokens text).map (·.token)) 0)).1.mapSpans (Span.map (offset text)) := by
  rw [parse,readText,byteSpan_boundaries]
  rfl

theorem parse_eq : ∃ file : CompilationUnit, parse text = file.mapSpans (Span.map (offset text)) ∧
    file.Sits ((tokens text).map (·.token)) := by
  obtain ⟨file,_,ran,_,sits⟩ := Reads.compilationUnit_fits (Nat.zero_le ((tokens text).map (·.token)).length)
  exact ⟨file,by rw [parse_read,ran],sits⟩

theorem TypeDecl.mem_spans {decl : TypeDecl} {member : Member} {span : Span} (listed : member ∈ decl.members)
    (own : span ∈ member.spans) : span ∈ decl.spans := by
  have inside : span ∈ decl.members.flatMap Member.spans := List.mem_flatMap.mpr ⟨member,listed,own⟩
  simp [TypeDecl.spans,inside]

theorem Member.AroundBody.mapSpans {text : Text} {member : Member} (around : member.AroundBody)
    (fit : ∀ span ∈ member.spans, Fits (tokens text).length span) :
    (member.mapSpans (Span.map (offset text))).AroundBody := by
  intro decl same b given
  cases member with
  | method read =>
    cases same
    obtain ⟨body,found,rfl⟩ := Option.map_eq_some_iff.mp given
    have inside : body.span ∈ (Member.method read).spans := by
      simp [Member.spans,found,Block.spansOption,body.span_mem_spans]
    rw [Block.mapSpans_span]
    exact contains_map (around read rfl body found) (fit _ List.mem_cons_self) (fit _ inside)
  | _ => cases same

theorem parse_liesIn : (parse text).LiesIn text := by
  obtain ⟨file,parsed,sits⟩ := parse_eq text
  have known := sits.spans
  simp only [List.length_map] at known
  rw [parsed]
  refine ⟨?_,?_,?_,?_⟩
  · rw [CompilationUnit.spans_mapSpans,List.forall_mem_map]
    exact fun span member => (known span member).cuts
  · rw [CompilationUnit.blocks_mapSpans,List.forall_mem_map]
    intro b member
    obtain ⟨inner,within,own⟩ := List.mem_flatMap.mp member
    obtain ⟨type,listed,declared⟩ := List.mem_flatMap.mp within
    rw [Block.mapSpans_span,Block.statementSpans_mapSpans]
    exact ((sits.types type listed).own.blocks b (List.mem_flatMap.mpr ⟨inner,declared,own⟩)).surrounds
  · rw [CompilationUnit.allTypes_mapSpans,List.forall_mem_map]
    intro type listed
    have laid := (sits.types type listed).members.surrounds
    rw [TypeDecl.members_mapSpans,List.map_map]
    rw [List.map_map] at laid
    have spans : Member.span ∘ Member.mapSpans (Span.map (offset text)) =
        Span.map (offset text) ∘ Member.span := funext (Member.mapSpans_span _)
    rw [spans]
    cases type
    exact laid
  · rw [CompilationUnit.members_mapSpans,List.forall_mem_map]
    intro member within decl same b given
    obtain ⟨type,listed,declared⟩ := List.mem_flatMap.mp within
    have around := ((sits.types type listed).bodies member declared).around
    refine around.mapSpans (fun span own => ?_) decl same b given
    have fits := (sits.types type listed).own.spans span (TypeDecl.mem_spans declared own)
    rwa [List.length_map] at fits

end Java
end Transplant
