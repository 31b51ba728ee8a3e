import Mathlib
import Transplant.Proofs.Java.Nested
import Transplant.Proofs.Java.Placement
import Transplant.Proofs.Java.Shifted

/-! A file that is one type, and the same type as the only member of a class. -/
namespace Transplant.Java

open Token (Kind)

/-- The text is one type from its first token to its last. -/
structure Sole (alone : Text) (decl : TypeDecl) : Prop where
  types : (parse alone).types = [decl]
  spans : ∀ token ∈ tokens alone, decl.span.contains token.span = true

/-- A closing brace behind the text stands there by itself, and is no part of a type of the text. -/
structure Closed (alone : Text) : Prop where
  lexed : tokens (alone ++ ['}']) = tokens alone ++ [⟨.braceClose,⟨alone.size,alone.size + 1⟩⟩]
  read : (parse (alone ++ ['}'])).types = (parse alone).types

section

variable {alone : Text} {decl : TypeDecl}

theorem Closed.known (closed : Closed alone) {k : Nat} {token : PlacedToken} (found : (tokens alone)[k]? = some token) :
    token.span = ⟨offset (alone ++ ['}']) (2 * k + 1),offset (alone ++ ['}']) (2 * k + 2)⟩ := by
  refine token_span ?_
  rw [closed.lexed,List.getElem?_append_left (List.getElem?_eq_some_iff.mp found).1]
  exact found

theorem types_inside {text : Text} {decl : TypeDecl} (listed : decl ∈ (parse text).types) :
    decl.span.stop ≤ text.size := by
  have own : decl.span ∈ (parse text).allTypes.flatMap TypeDecl.spans :=
    List.mem_flatMap.mpr ⟨decl,List.mem_flatMap.mpr ⟨decl,listed,decl.mem_types⟩,List.mem_cons_self⟩
  refine ((parse_liesIn text).spans _ ?_).inside
  simp only [CompilationUnit.spans,List.mem_cons,List.mem_append]
  exact .inr (.inr (.inr own))

/-- The type of the text is read from all its tokens, also where a brace follows. -/
theorem Sole.read (sole : Sole alone decl) (closed : Closed alone) : ∃ read : TypeDecl,
    read.mapSpans (Span.map (offset (alone ++ ['}']))) = decl ∧
      Parser.typeDecl (.on ((tokens (alone ++ ['}'])).map (·.token)) 0) =
        (some read,.on ((tokens (alone ++ ['}'])).map (·.token)) (tokens alone).length) ∧
      (tokens alone).length ≠ 0 := by
  have types := closed.read.trans sole.types
  obtain ⟨file,_,ran,_,known⟩ := Reads.compilationUnit_read
    (Nat.zero_le ((tokens (alone ++ ['}'])).map (·.token)).length)
  rw [parse_read,ran] at types
  obtain ⟨read,only,placed⟩ := List.map_eq_singleton_iff.mp types
  obtain ⟨k,l,bound,run,before,span⟩ := known read (by rw [only]; exact List.mem_singleton_self _)
  have length : (tokens (alone ++ ['}'])).length = (tokens alone).length + 1 := by
    rw [closed.lexed,List.length_append]
    rfl
  rw [List.length_map,length] at bound
  have place : decl.span = Span.map (offset (alone ++ ['}'])) ⟨2 * k + 1,2 * l⟩ := by
    rw [← placed,TypeDecl.mapSpans_span,span]
  -- The type ends inside the text, and so in front of the brace.
  have inside := types_inside (show decl ∈ (parse alone).types by rw [sole.types]; exact List.mem_singleton_self _)
  have last : offset (alone ++ ['}']) (2 * ((tokens alone).length + 1)) = alone.size + 1 := by
    have brace : (tokens (alone ++ ['}']))[(tokens alone).length]? =
        some ⟨.braceClose,⟨alone.size,alone.size + 1⟩⟩ := by
      rw [closed.lexed,List.getElem?_concat_length]
    exact (congrArg Span.stop (token_span brace)).symm
  have short : l ≤ (tokens alone).length := by
    by_contra long
    obtain rfl : l = (tokens alone).length + 1 := by omega
    rw [place,Span.map] at inside
    simp only [last] at inside
    omega
  have contained (m : Nat) (here : m < (tokens alone).length) : 2 * k + 1 ≤ 2 * m + 1 ∧ 2 * m + 2 ≤ 2 * l := by
    have found := List.getElem?_eq_getElem here
    have inside := sole.spans _ (List.getElem_mem here)
    rw [closed.known found,place] at inside
    exact (contains_token_iff (by omega) (show 2 * k + 1 ≤ _ by omega) (show 2 * l ≤ _ by omega)).mp inside
  have first := contained 0 (by omega)
  have final := contained ((tokens alone).length - 1) (by omega)
  obtain rfl : k = 0 := by omega
  obtain rfl : l = (tokens alone).length := by omega
  exact ⟨read,placed,run,by omega⟩

/-- A class so named with the text as its body. -/
def within (name alone : Text) : Text := opened name ++ (alone ++ ['}'])

/-- A record has the parenthesis of its parameters directly behind its name. -/
def Headed (alone : Text) (decl : TypeDecl) : Prop := decl.kind = .recordType →
  ∀ k (inside : k < (tokens alone).length), (tokens alone)[k].span = decl.name.span →
    (Cursor.on ((tokens alone).map (·.token)) (k + 1)).sees .parenOpen = true

/-- The first member of a class is read behind its header. -/
theorem class_first {text : String} {rest : List Token} {found : Option Member} {next : Cursor}
    (run : Parser.member text (.on (word "class" :: word text :: .braceOpen :: rest) 3) = (found,next))
    (on : 3 < next.passed) (some : rest ≠ []) (going : ¬ Seen rest 0 .braceClose) :
    Parser.gathered [.braceClose] (Parser.member text) (.on (word "class" :: word text :: .braceOpen :: rest) 3) =
      (found.toList ++ (Parser.gather [.braceClose] (Parser.member text) rest.length next).1,
        (Parser.gather [.braceClose] (Parser.member text) rest.length next).2) := by
  refine Parser.gathered_cons ?_ ?_ run (Nat.ne_of_gt on)
  · exact List.isEmpty_eq_false_iff.mpr some
  · refine Bool.eq_false_iff.mpr fun seen => going ?_
    simp only [Cursor.seesAny,List.any_cons,List.any_nil,Bool.or_false] at seen
    exact Cursor.on_sees_iff.mp seen

/-- A file that begins with the word for a class begins with a class. -/
theorem compilationUnit_class {text : String} {rest : List Token} {decl : TypeDecl} {next : Cursor}
    (run : Parser.typeDecl (.on (word "class" :: word text :: .braceOpen :: rest) 0) = (some decl,next))
    (on : 0 < next.passed) :
    (Parser.compilationUnit (.on (word "class" :: word text :: .braceOpen :: rest) 0)).1.types =
      decl :: (Parser.gather [] Parser.typeDecl (rest.length + 3) next).1 := by
  have types : (Parser.compilationUnit (.on (word "class" :: word text :: .braceOpen :: rest) 0)).1.types =
      (Parser.gathered [] Parser.typeDecl (.on (word "class" :: word text :: .braceOpen :: rest) 0)).1 := rfl
  rw [types,Parser.gathered_cons rfl rfl run (Nat.ne_of_gt on)]
  rfl

end

section

variable {text : String} {rest : List Token} {read : TypeDecl} {count : Nat}

theorem headed_later : MemberLevel.Headed (word "class" :: word text :: .braceOpen :: rest) (read.mapSpans (moved 3)) ↔
    MemberLevel.Headed rest read := by
  have name : (read.mapSpans (moved 3)).name.span = moved 3 read.name.span := by cases read; rfl
  have kind : (read.mapSpans (moved 3)).kind = read.kind := by cases read; rfl
  rw [MemberLevel.Headed,MemberLevel.Headed,kind,name]
  refine imp_congr_right fun _ => ⟨fun headed i place => ?_,fun headed i place => ?_⟩
  · have seen := headed (i + 3) (by rw [place]; simp only [moved,Span.map]; congr 1)
    exact seen
  · have start := congrArg Span.start place
    have stop := congrArg Span.stop place
    simp only [moved_start,moved_stop] at start stop
    obtain ⟨i,rfl⟩ : ∃ k, i = k + 3 := ⟨i - 3,by omega⟩
    have own : read.name.span = ⟨2 * i + 1,2 * i + 2⟩ := by
      have parts : read.name.span.start = 2 * i + 1 ∧ read.name.span.stop = 2 * i + 2 := by omega
      cases named : read.name.span
      rw [named] at parts
      exact Span.mk.injEq .. ▸ parts
    exact headed i own

/-- The type as the first member of a class. -/
theorem class_type (run : Parser.typeDecl (.on rest 0) = (some read,.on rest count))
    (plain : ∀ token ∈ rest, token.Plain) :
    let first := Parser.member text (.on (word "class" :: word text :: .braceOpen :: rest) 3)
    (MemberLevel.Headed rest read → first = (some (.type (read.mapSpans (moved 3))),
        .on (word "class" :: word text :: .braceOpen :: rest) (count + 3))) ∧
      (¬ MemberLevel.Headed rest read → ∃ other next, first = (some other,next) ∧ other.isType = false ∧
        3 < next.passed) := by
  obtain ⟨_,_,ran,_,_,later⟩ := (Carries.typeDecl plain : Carries _ rest 3 _ _ 0) (Nat.zero_le _)
  rw [run] at ran
  obtain ⟨rfl,stop⟩ := Prod.mk.inj ran
  rw [← stop] at later
  have here : Parser.typeDecl (.on (word "class" :: word text :: .braceOpen :: rest) 3) =
      (some (read.mapSpans (moved 3)),.on (word "class" :: word text :: .braceOpen :: rest) (count + 3)) := later
  have inside : 3 ≤ (word "class" :: word text :: Token.braceOpen :: rest).length := Nat.le_add_left 3 rest.length
  obtain ⟨first,j,ran,again,_⟩ := MemberLevel.recursion.unfolds 3 text inside
  obtain ⟨yes,no⟩ := MemberLevel.member_type text here inside
  rw [headed_later,again] at yes no
  refine ⟨fun headed => ran.trans (yes headed),fun unheaded => ?_⟩
  obtain ⟨other,found,kind⟩ := no unheaded
  obtain ⟨_,k,run,_,_,given⟩ := MemberLevel.member_fits (fun owner _ => Reads.bounded fun turns _ =>
    MemberLevel.reader_fits turns owner) text inside
  obtain ⟨rfl,there⟩ := Prod.mk.inj (again.symm.trans run)
  cases congrArg Cursor.passed there
  exact ⟨other,_,ran.trans (Prod.ext found rfl),kind,(given other found).before⟩

/-- In a class the type is the only member if it is recognised there, and no member else. -/
theorem class_types (run : Parser.typeDecl (.on rest 0) = (some read,.on rest count))
    (closing : rest.drop count = [.braceClose]) (some : count ≠ 0) (plain : ∀ token ∈ rest, token.Plain) :
    let types := (Parser.compilationUnit (.on (word "class" :: word text :: .braceOpen :: rest) 0)).1.types
    (MemberLevel.Headed rest read → ∃ outer, types = [outer] ∧ outer.kind = .classType ∧ outer.name.text = text ∧
        outer.members = [.type (read.mapSpans (moved 3))]) ∧
      (¬ MemberLevel.Headed rest read → ∃ outer other members more, types = outer :: more ∧
        outer.members = other :: members ∧ other.isType = false) := by
  have filled : rest ≠ [] := by
    rintro rfl
    simp at closing
  have going := MemberLevel.typeDecl_seen run
  obtain ⟨yes,no⟩ := @class_type text _ _ _ run plain
  constructor
  · intro headed
    have members := class_first (yes headed) (Nat.lt_add_of_pos_left (Nat.pos_of_ne_zero some)) filled going
    have behind : Cursor.on (word "class" :: word text :: .braceOpen :: rest) (count + 3) =
        ⟨count + 3,[.braceClose]⟩ := congrArg (Cursor.mk (count + 3)) closing
    rw [behind,Parser.gather_stop _ _ rfl] at members
    have whole := MemberLevel.class_run text rest
    simp only [members] at whole
    have types := compilationUnit_class whole (Nat.succ_pos _)
    rw [Parser.gather_stop _ _ rfl] at types
    exact ⟨_,types,rfl,rfl,rfl⟩
  · intro unheaded
    obtain ⟨other,next,found,kind,on⟩ := no unheaded
    have members := class_first found on filled going
    have whole := MemberLevel.class_run text rest
    simp only [members] at whole
    obtain ⟨_,j,ran,_,_,given⟩ := Reads.typeDecl_fits
      (Nat.zero_le (word "class" :: word text :: .braceOpen :: rest).length)
    obtain ⟨same,there⟩ := Prod.mk.inj (whole.symm.trans ran)
    have types := compilationUnit_class whole (by rw [there]; exact (given _ same.symm).1)
    exact ⟨_,other,_,_,types,rfl,kind⟩

end

theorem Closed.words {alone : Text} (closed : Closed alone) :
    (tokens (alone ++ ['}'])).map (·.token) = (tokens alone).map (·.token) ++ [.braceClose] := by
  rw [closed.lexed,List.map_append]
  rfl

/-- The brace is no other token. -/
theorem Closed.seen {alone : Text} (closed : Closed alone) {kind : Kind} (other : kind ≠ .braceClose) (k : Nat) :
    Seen ((tokens (alone ++ ['}'])).map (·.token)) k kind ↔ Seen ((tokens alone).map (·.token)) k kind := by
  rw [closed.words,Seen,Seen]
  refine exists_congr fun token => and_congr_left fun same => ?_
  rcases Nat.lt_trichotomy k ((tokens alone).map (·.token)).length with inside | last | beyond
  · rw [List.getElem?_append_left inside]
  · rw [last,List.getElem?_concat_length,List.getElem?_eq_none (Nat.le_refl _)]
    refine ⟨fun found => ?_,nofun⟩
    cases Option.some.inj found
    exact absurd same.symm other
  · rw [List.getElem?_eq_none (by simpa [Nat.succ_le_iff] using beyond),List.getElem?_eq_none (Nat.le_of_lt beyond)]

/-- The parenthesis is where it is among the tokens that are read. -/
theorem headed_read {alone : Text} {read : TypeDecl} (closed : Closed alone) {next : Cursor}
    (run : Parser.typeDecl (.on ((tokens (alone ++ ['}'])).map (·.token)) 0) = (some read,next)) :
    Headed alone (read.mapSpans (Span.map (offset (alone ++ ['}'])))) ↔
      MemberLevel.Headed ((tokens (alone ++ ['}'])).map (·.token)) read := by
  have name : (read.mapSpans (Span.map (offset (alone ++ ['}'])))).name.span =
      read.name.span.map (offset (alone ++ ['}'])) := by cases read; rfl
  have kind : (read.mapSpans (Span.map (offset (alone ++ ['}'])))).kind = read.kind := by cases read; rfl
  rw [Headed,MemberLevel.Headed,kind,name]
  refine imp_congr_right fun record => ?_
  obtain ⟨n,ident,place⟩ := MemberLevel.typeDecl_record run (Nat.zero_le _) record
  have inside : n < (tokens alone).length := by simpa using ((closed.seen (by decide) n).mp ident).lt
  have length : (tokens (alone ++ ['}'])).length = (tokens alone).length + 1 := by
    rw [closed.lexed,List.length_append]
    rfl
  simp only [place,closed.seen (show Kind.parenOpen ≠ .braceClose by decide),Cursor.on_sees_iff]
  constructor
  · intro headed i same
    have here : 2 * n + 1 = 2 * i + 1 := congrArg Span.start same
    obtain rfl : n = i := by omega
    exact headed n inside (closed.known (List.getElem?_eq_getElem inside))
  · intro headed k here same
    rw [closed.known (List.getElem?_eq_getElem here)] at same
    obtain rfl := offset_token (by omega) (by omega) (congrArg Span.start same)
    exact headed k rfl

theorem tokens_within {name alone : Text} (named : (word (String.ofList name)).isWhole = true) :
    (tokens (within name alone)).map (·.token) =
      word "class" :: word (String.ofList name) :: .braceOpen :: (tokens (alone ++ ['}'])).map (·.token) := by
  obtain ⟨first,second,third,all,keyword,own,brace,_⟩ := tokens_opened named (alone ++ ['}'])
  have later : ((tokens (alone ++ ['}'])).map (PlacedToken.later (opened name).size)).map (·.token) =
      (tokens (alone ++ ['}'])).map (·.token) := by
    rw [List.map_map]
    rfl
  rw [within,all,List.map_cons,List.map_cons,List.map_cons,keyword,own,brace,later]

/-- A type that is read three tokens further on has its places behind the opening of the class. -/
theorem mapSpans_within {name alone : Text} {read : TypeDecl} {next : Cursor}
    (named : (word (String.ofList name)).isWhole = true)
    (run : Parser.typeDecl (.on ((tokens (alone ++ ['}'])).map (·.token)) 0) = (some read,next)) :
    (read.mapSpans (moved 3)).mapSpans (Span.map (offset (within name alone))) =
      (read.mapSpans (Span.map (offset (alone ++ ['}'])))).mapSpans (Span.map (· + (opened name).size)) := by
  obtain ⟨_,_,ran,_,_,sits⟩ := Reads.typeDecl_fits
    (Nat.zero_le ((tokens (alone ++ ['}'])).map (·.token)).length)
  obtain ⟨same,_⟩ := Prod.mk.inj (run.symm.trans ran)
  obtain ⟨_,_,sits⟩ := sits read same.symm
  rw [(Member.mapSpans_mapSpans_all _ _).1,(Member.mapSpans_mapSpans_all _ _).1]
  refine TypeDecl.mapSpans_congr_all.1 read fun type inside span listed => ?_
  obtain ⟨order,known⟩ := (sits type inside).own.spans span listed
  rw [List.length_map] at known
  simp only [Function.comp_apply,moved,Span.map,Nat.reduceMul]
  rw [within,offset_opened named _ (Nat.le_trans order known),offset_opened named _ known]

theorem Member.mapSpans_isType (member : Member) (f : Span → Span) : (member.mapSpans f).isType = member.isType := by
  cases member <;> rfl

/-- A type is a member of the class as it is a type by itself, if and only if it is recognised there. -/
theorem nested_alone_iff {name alone : Text} {decl : TypeDecl} (named : (word (String.ofList name)).isWhole = true)
    (sole : Sole alone decl) (closed : Closed alone) :
    (∃ outer, (parse (within name alone)).types = [outer] ∧ outer.kind = .classType ∧
      outer.name.text = String.ofList name ∧
      outer.members = [.type (decl.mapSpans (Span.map (· + (opened name).size)))]) ↔ Headed alone decl := by
  obtain ⟨read,rfl,run,some⟩ := sole.read closed
  have closing : ((tokens (alone ++ ['}'])).map (·.token)).drop (tokens alone).length = [.braceClose] := by
    rw [closed.lexed,List.map_append,List.drop_append_of_le_length (by simp),List.drop_eq_nil_of_le (by simp)]
    rfl
  obtain ⟨yes,no⟩ := @class_types (String.ofList name) _ _ _ run closing some (tokens_plain _)
  have members (outer : TypeDecl) : (outer.mapSpans (Span.map (offset (within name alone)))).members =
      outer.members.map (Member.mapSpans (Span.map (offset (within name alone)))) := outer.members_mapSpans _
  rw [headed_read closed run,parse_read,tokens_within named]
  simp only [CompilationUnit.mapSpans]
  constructor
  · rintro ⟨outer,types,_,_,only⟩
    by_contra unheaded
    obtain ⟨first,other,rest,more,read,own,kind⟩ := no unheaded
    rw [read,List.map_cons] at types
    rw [← (List.cons.inj types).1,members,own,List.map_cons] at only
    have same := other.mapSpans_isType (Span.map (offset (within name alone)))
    rw [(List.cons.inj only).1,kind] at same
    cases same
  · intro headed
    obtain ⟨outer,types,kind,called,only⟩ := yes headed
    refine ⟨outer.mapSpans _,by rw [types]; rfl,?_,?_,?_⟩
    · cases outer; exact kind
    · cases outer; exact called
    · rw [members,only,List.map_singleton,Member.mapSpans,mapSpans_within named run]

/-- A record whose parameters follow its name is recognised. -/
theorem nested_alone_record : (word (String.ofList ['W'])).isWhole = true ∧
    ∃ decl, Sole "record R(T t) \x7b int n; \x7d ".toList decl ∧ Closed "record R(T t) \x7b int n; \x7d ".toList ∧
      Headed "record R(T t) \x7b int n; \x7d ".toList decl ∧
      ∃ outer, (parse (within ['W'] "record R(T t) \x7b int n; \x7d ".toList)).types = [outer] ∧
        outer.kind = .classType ∧ outer.name.text = String.ofList ['W'] ∧
        outer.members = [.type (decl.mapSpans (Span.map (· + (opened ['W']).size)))] := by
  have sole : Sole "record R(T t) \x7b int n; \x7d ".toList
      ⟨.recordType,.none,⟨"R",⟨7,8⟩⟩,⟨0,24⟩,⟨14,24⟩,[.field ⟨.none,⟨"int",⟨16,19⟩⟩,⟨"n",⟨20,21⟩⟩,⟨16,22⟩⟩]⟩ :=
    ⟨by cbv,by decide +kernel⟩
  have closed : Closed "record R(T t) \x7b int n; \x7d ".toList := ⟨by cbv,by cbv⟩
  have headed : Headed "record R(T t) \x7b int n; \x7d ".toList
      ⟨.recordType,.none,⟨"R",⟨7,8⟩⟩,⟨0,24⟩,⟨14,24⟩,[.field ⟨.none,⟨"int",⟨16,19⟩⟩,⟨"n",⟨20,21⟩⟩,⟨16,22⟩⟩]⟩ := fun _ => by
    decide +kernel
  exact ⟨by decide,_,sole,closed,headed,(nested_alone_iff (by decide) sole closed).mpr headed⟩

/-- The parameters of a generic record stand behind those of its types, so it becomes a field. -/
theorem generic_record_not_nested : ∃ decl, Sole "record R<T>(T t) \x7b \x7d ".toList decl ∧
    Closed "record R<T>(T t) \x7b \x7d ".toList ∧
    ¬ ∃ outer, (parse (within ['W'] "record R<T>(T t) \x7b \x7d ".toList)).types = [outer] ∧
      outer.kind = .classType ∧ outer.name.text = String.ofList ['W'] ∧
      outer.members = [.type (decl.mapSpans (Span.map (· + (opened ['W']).size)))] := by
  refine ⟨⟨.recordType,.none,⟨"R",⟨7,8⟩⟩,⟨0,20⟩,⟨17,20⟩,[]⟩,⟨by cbv,by decide +kernel⟩,⟨by cbv,by cbv⟩,?_⟩
  rintro ⟨outer,types,_,_,members⟩
  have read : (parse (within ['W'] "record R<T>(T t) \x7b \x7d ".toList)).types =
      [⟨.classType,.none,⟨"W",⟨6,7⟩⟩,⟨0,31⟩,⟨8,31⟩,
        [.field ⟨.none,⟨"record",⟨9,15⟩⟩,⟨"R",⟨16,17⟩⟩,⟨9,29⟩⟩]⟩] := by
    cbv
  rw [read] at types
  cases types
  cases members

end Transplant.Java
