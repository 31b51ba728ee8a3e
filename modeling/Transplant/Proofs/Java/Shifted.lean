import Transplant.Proofs.Java.Parts
import Transplant.Proofs.Java.Print
import Transplant.Proofs.Java.Unplaced

/-! Places in a text that has something in front. Its tokens are those of the text alone, as many bytes
further on as the front has, and the boundaries between them follow those of the front. -/
namespace Transplant.Java

section Congruence

variable {f g : Span → Span}

/-- A change of spans is seen at the spans of the tree alone. -/
theorem Expr.mapSpans_congr_all :
    (∀ e : Expr, (∀ span ∈ e.spans, f span = g span) → e.mapSpans f = e.mapSpans g) ∧
    (∀ value, (∀ span ∈ Expr.spansOption value, f span = g span) →
      Expr.mapSpansOption f value = Expr.mapSpansOption g value) ∧
    ∀ list, (∀ span ∈ Expr.spansAll list, f span = g span) → Expr.mapSpansAll f list = Expr.mapSpansAll g list := by
  apply Expr.induction_all
  all_goals intros
  all_goals simp_all [Expr.mapSpans,Expr.mapSpansAll,Expr.mapSpansOption,Expr.spans,Expr.spansAll,
    Expr.spansOption,TypeRef.mapSpans,Ident.mapSpans,or_imp,forall_and]
  case create same => exact Option.map_congr same.2.2.2.2.2.2

theorem Param.mapSpans_congr (param : Param) (same : ∀ span ∈ param.spans, f span = g span) :
    param.mapSpans f = param.mapSpans g := by
  simp only [Param.spans,List.forall_mem_cons] at same
  simp only [Param.mapSpans,TypeRef.mapSpans,Ident.mapSpans,same]

theorem Declarator.mapSpans_congr (declarator : Declarator) (same : ∀ span ∈ declarator.spans, f span = g span) :
    declarator.mapSpans f = declarator.mapSpans g := by
  simp only [Declarator.spans,List.forall_mem_cons] at same
  have value := Expr.mapSpans_congr_all.2.1 declarator.initializer same.2.2
  simp only [Expr.mapSpansOption_eq] at value
  simp only [Declarator.mapSpans,Ident.mapSpans,same,value]

theorem Stmt.mapSpans_congr_all :
    (∀ s : Stmt, (∀ span ∈ s.spans, f span = g span) → s.mapSpans f = s.mapSpans g) ∧
    (∀ value, (∀ span ∈ Block.spansOption value, f span = g span) →
      Block.mapSpansOption f value = Block.mapSpansOption g value) ∧
    (∀ block : Block, (∀ span ∈ block.spans, f span = g span) → block.mapSpans f = block.mapSpans g) ∧
    (∀ list, (∀ span ∈ Stmt.spansAll list, f span = g span) → Stmt.mapSpansAll f list = Stmt.mapSpansAll g list) ∧
    (∀ list, (∀ span ∈ Catch.spansAll list, f span = g span) →
      Catch.mapSpansAll f list = Catch.mapSpansAll g list) ∧
    (∀ clause : Catch, (∀ span ∈ clause.spans, f span = g span) → clause.mapSpans f = clause.mapSpans g) ∧
    ∀ value, (∀ span ∈ Stmt.spansOption value, f span = g span) →
      Stmt.mapSpansOption f value = Stmt.mapSpansOption g value := by
  have values := @Expr.mapSpans_congr_all f g
  simp only [Expr.mapSpansOption_eq,Expr.mapSpansAll_eq_map] at values
  apply Stmt.induction_all
  all_goals intros
  all_goals simp_all [Stmt.mapSpans,Stmt.mapSpansAll,Stmt.mapSpansOption,Block.mapSpans,
    Block.mapSpansOption,Catch.mapSpans,Catch.mapSpansAll,Stmt.spans,Stmt.spansAll,Stmt.spansOption,
    Block.spans,Block.spansOption,Catch.spans,Catch.spansAll,TypeRef.mapSpans,or_imp,forall_and]
  case declare same => exact fun declarator listed =>
    declarator.mapSpans_congr fun span own => same.2.2 span declarator listed own
  case forLoop same => exact values.2.2 _ same.2.2.2.1
  case forEach same => exact Param.mapSpans_congr _ same.2.1
  case clause same => exact Param.mapSpans_congr _ same.2.1

theorem MethodDecl.mapSpans_congr (decl : MethodDecl)
    (same : ∀ span ∈ (Member.method decl).spans, f span = g span) : decl.mapSpans f = decl.mapSpans g := by
  simp only [Member.spans,List.forall_mem_cons,List.forall_mem_append,List.mem_flatMap] at same
  have params : decl.params.map (Param.mapSpans f) = decl.params.map (Param.mapSpans g) :=
    List.map_congr_left fun param listed => param.mapSpans_congr fun span own => same.2.2.2.1 span ⟨param,listed,own⟩
  have body := Stmt.mapSpans_congr_all.2.1 decl.body same.2.2.2.2
  simp only [Block.mapSpansOption_eq] at body
  simp only [MethodDecl.mapSpans,TypeRef.mapSpans,Ident.mapSpans,same,params,body]

theorem ConstructorDecl.mapSpans_congr (decl : ConstructorDecl)
    (same : ∀ span ∈ (Member.constructor decl).spans, f span = g span) : decl.mapSpans f = decl.mapSpans g := by
  simp only [Member.spans,List.forall_mem_cons,List.forall_mem_append,List.mem_flatMap] at same
  have params : decl.params.map (Param.mapSpans f) = decl.params.map (Param.mapSpans g) :=
    List.map_congr_left fun param listed => param.mapSpans_congr fun span own => same.2.2.1 span ⟨param,listed,own⟩
  have body := Stmt.mapSpans_congr_all.2.2.1 decl.body same.2.2.2
  simp only [ConstructorDecl.mapSpans,Ident.mapSpans,same,params,body]

/-- Both changes do the same to all that a type and the types inside it store. -/
theorem TypeDecl.mapSpans_congr_all :
    (∀ decl : TypeDecl, (∀ type ∈ decl.types, ∀ span ∈ type.spans, f span = g span) →
      decl.mapSpans f = decl.mapSpans g) ∧
    (∀ list, (∀ member ∈ list, ∀ span ∈ Member.spans member, f span = g span) →
      (∀ type ∈ Member.typesAll list, ∀ span ∈ type.spans, f span = g span) →
      Member.mapSpansAll f list = Member.mapSpansAll g list) ∧
    ∀ member : Member, (∀ span ∈ member.spans, f span = g span) →
      (∀ type ∈ member.types, ∀ span ∈ type.spans, f span = g span) → member.mapSpans f = member.mapSpans g := by
  apply TypeDecl.induction_all
  case type =>
    intro kind modifiers name span bodySpan members ih same
    simp only [TypeDecl.types,List.forall_mem_cons,TypeDecl.spans,List.mem_flatMap] at same
    obtain ⟨⟨own,body,named,inside⟩,others⟩ := same
    have members := ih (fun member listed span own => inside span ⟨member,listed,own⟩) fun type listed => by
      simpa only [TypeDecl.spans,List.forall_mem_cons,List.mem_flatMap] using others type listed
    simp only [TypeDecl.mapSpans,Ident.mapSpans,own,body,named,members]
  case field =>
    intro decl same _
    simp only [Member.spans,List.forall_mem_cons] at same
    simp only [Member.mapSpans,FieldDecl.mapSpans,TypeRef.mapSpans,Ident.mapSpans,same]
  case method => exact fun decl same _ => congrArg Member.method (decl.mapSpans_congr same)
  case constructor => exact fun decl same _ => congrArg Member.constructor (decl.mapSpans_congr same)
  case initializer =>
    intro decl same _
    simp only [Member.spans,List.forall_mem_cons] at same
    simp only [Member.mapSpans,InitializerDecl.mapSpans,same.1,Stmt.mapSpans_congr_all.2.2.1 _ same.2]
  case nested => exact fun decl ih _ same => congrArg Member.type (ih same)
  case nil => exact fun _ _ => rfl
  case cons =>
    intro member rest first others same inside
    simp only [List.forall_mem_cons] at same
    simp only [Member.typesAll,List.forall_mem_append] at inside
    rw [Member.mapSpansAll,Member.mapSpansAll,first same.1 inside.1,others same.2 inside.2]

end Congruence

/-- The header of a class so named, up to and with the brace of its body. -/
def opened (name : Text) : Text := "class ".toList ++ (name ++ [' ','{'])

section Opened

variable {name : Text}

theorem size_opened (name : Text) : (opened name).size = name.size + 8 := by
  rw [opened,Text.size_append,Text.size_append,show Text.size "class ".toList = 6 from rfl,
    show Text.size [' ','{'] = 2 from rfl]
  omega

theorem scanToken_brace (rest : Text) : scanToken '{' rest = (.braceOpen,[],rest) := rfl

/-- A token is cut out behind one blank. -/
theorem tokensFrom_space {taken gap : Text} {c : Char} {kind : Token.Kind} (start : Nat)
    (passed : scanGap .blank (c :: (taken ++ gap)) = ([],c :: (taken ++ gap)))
    (read : scanToken c (taken ++ gap) = (kind,taken,gap)) :
    tokensFrom start (' ' :: c :: (taken ++ gap)) =
      ⟨⟨kind,String.ofList (c :: taken)⟩,⟨start + 1,start + 1 + Text.size (c :: taken)⟩⟩ ::
        tokensFrom (start + 1 + Text.size (c :: taken)) gap := by
  refine @tokensFrom_cons _ [' '] _ _ _ _ start ?_ read
  rw [scanGap_space,passed]

/-- A text behind the header has its tokens behind those of the header. -/
theorem tokens_opened (named : (word (String.ofList name)).isWhole = true) (rest : Text) :
    ∃ first second third, tokens (opened name ++ rest) =
        first :: second :: third :: (tokens rest).map (.later (opened name).size) ∧
      first.token = word "class" ∧ second.token = word (String.ofList name) ∧ third.token = .braceOpen ∧
      third.span.stop = (opened name).size := by
  obtain ⟨c,taken,spelled,cut⟩ := Token.isWhole.cutOut named
  obtain ⟨passed,read⟩ := cut (' ' :: '{' :: rest) (by rintro _ ⟨⟩; rfl)
  rw [word,String.toList_ofList] at spelled
  subst spelled
  obtain ⟨start,keyword⟩ := cutOut_word (show isIdentStart 'c' = true by decide)
    (show ['l','a','s','s'].all isIdentPart = true by decide) (' ' :: c :: (taken ++ ' ' :: '{' :: rest))
    (by rintro _ ⟨⟩; rfl)
  have text : opened (c :: taken) ++ rest =
      'c' :: (['l','a','s','s'] ++ ' ' :: c :: (taken ++ ' ' :: '{' :: rest)) := by
    rw [opened,List.append_assoc,List.append_assoc]
    rfl
  have first := tokensFrom_cons 0 start keyword
  have second := tokensFrom_space 5 passed read
  have third := @tokensFrom_space [] rest '{' .braceOpen (6 + Text.size (c :: taken))
    (scanGap_none (by decide) (by decide)) (scanToken_brace rest)
  have last := tokensFrom_later 0 (opened (c :: taken)).size rest
  have size : 6 + Text.size (c :: taken) + 1 + Text.size ['{'] = (opened (c :: taken)).size := by
    rw [size_opened,show Text.size ['{'] = 1 from rfl]
    omega
  rw [Nat.zero_add,← size] at last
  have all := first.trans (congrArg _ (second.trans (congrArg _ (third.trans (congrArg _ last)))))
  rw [← text,size] at all
  exact ⟨_,_,_,all,rfl,rfl,rfl,rfl⟩

/-- Boundaries of the text are boundaries of the longer text, behind the six of the header. -/
theorem offset_opened (named : (word (String.ofList name)).isWhole = true) (rest : Text) {boundary : Nat}
    (known : boundary ≤ 2 * (tokens rest).length + 1) :
    offset (opened name ++ rest) (boundary + 6) = offset rest boundary + (opened name).size := by
  obtain ⟨first,second,third,all,_,_,_,stop⟩ := tokens_opened named rest
  have later (list : List PlacedToken) : ends (list.map (.later (opened name).size)) =
      (ends list).map (· + (opened name).size) := by
    simp only [ends,List.flatMap_map,List.map_flatMap]
    rfl
  have shape : 0 :: (ends (tokens (opened name ++ rest)) ++ [(opened name ++ rest).size]) =
      0 :: first.span.start :: first.span.stop :: second.span.start :: second.span.stop :: third.span.start ::
        (0 :: (ends (tokens rest) ++ [rest.size])).map (· + (opened name).size) := by
    rw [all,Text.size_append,List.map_cons,List.map_append,← later,Nat.zero_add,← stop,Nat.add_comm third.span.stop]
    rfl
  have inside : boundary < (0 :: (ends (tokens rest) ++ [rest.size])).length := by
    simp only [List.length_cons,List.length_append,length_ends,List.length_nil]
    omega
  rw [offset_eq,offset_eq,shape]
  simp only [List.getElem?_cons_succ,List.getElem?_map,List.getElem?_eq_getElem inside]
  rfl

end Opened

end Transplant.Java
