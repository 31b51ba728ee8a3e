import Transplant.Proofs.Body.ReadBack
import Transplant.Proofs.Donor.Covered
import Transplant.Proofs.Java.Behind
import Transplant.Proofs.Java.Contexts
import Transplant.Proofs.Java.Shifted

/-! The value of a donor in the place of its call. A value without the flag for parentheses is no operation, so its text
may stand wherever a name may, a few places for primary expressions aside. -/
namespace Transplant

open Java (Expr Phrase Block Stmt offset)

namespace Java.Expr

variable {f g : Span → Span}

theorem mapSpans_complete (f : Span → Span) : (∀ e : Expr, (e.mapSpans f).isComplete = e.isComplete) ∧
    (∀ value : Option Expr, optionComplete (mapSpansOption f value) = optionComplete value) ∧
    ∀ list : List Expr, allComplete (mapSpansAll f list) = allComplete list := by
  apply Expr.induction_all
  all_goals intros
  all_goals simp_all [mapSpans,mapSpansOption,mapSpansAll,isComplete,optionComplete,allComplete]

/-- Nothing is open where nothing is, as long as what ends first still does. -/
theorem isSealed_mapSpans (ascending : ∀ first second : Span, (f first).stop < (f second).stop →
    (g first).stop < (g second).stop) (e : Expr) (closed : (e.mapSpans f).isSealed = true) :
    (e.mapSpans g).isSealed = true := by
  have primitive (h : Span → Span) (e : Expr) : (e.mapSpans h).isPrimitive = e.isPrimitive := by cases e <;> rfl
  fun_induction isSealed e with
  | case1 => exact closed
  | case2 outer type args dims initializer body span =>
    simp only [mapSpans,isSealed,Bool.and_eq_true,decide_eq_true_eq,mapSpansAll_eq_map,List.all_map,List.all_eq_true,
      Function.comp_apply,mapSpans_span] at closed ⊢
    exact ⟨ascending _ _ closed.1,fun dim member => ascending _ _ (closed.2 dim member)⟩
  | case3 => exact closed
  | case4 array position span =>
    simp only [mapSpans,isSealed,decide_eq_true_eq,mapSpans_span] at closed ⊢
    exact ascending _ _ closed
  | case5 op operand span ih => exact ih closed
  | case6 inner span =>
    simp only [mapSpans,isSealed,Bool.and_eq_true,decide_eq_true_eq,mapSpans_span,primitive] at closed ⊢
    exact ⟨ascending _ _ closed.1,closed.2⟩
  | case7 e literal create field index unary paren =>
    cases e with
    | literal => exact (literal _ _ _ rfl).elim
    | create => exact (create _ _ _ _ _ _ _ rfl).elim
    | field => exact (field _ _ _ rfl).elim
    | index => exact (index _ _ _ rfl).elim
    | paren => exact (paren _ _ rfl).elim
    | unary op leading =>
      cases leading with
      | true => exact (unary _ _ _ rfl).elim
      | false => rfl
    | _ => exact closed

theorem stored_bare : (∀ e : Expr, e.stored.bare = e.bare) ∧
    (∀ value : Option Expr, mapSpansOption (fun _ => .empty 0) (storedOption value) =
      mapSpansOption (fun _ => .empty 0) value) ∧
    ∀ list : List Expr, mapSpansAll (fun _ => .empty 0) (storedAll list) = mapSpansAll (fun _ => .empty 0) list := by
  apply Expr.induction_all
  all_goals intros
  all_goals simp_all [bare,mapSpans,mapSpansOption,mapSpansAll,stored,storedAll,storedOption,TypeRef.mapSpans]

theorem stored_sealed (e : Expr) : e.stored.isSealed = e.isSealed := by
  have primitive (e : Expr) : e.stored.isPrimitive = e.isPrimitive := by cases e <;> rfl
  have listed (list : List Expr) (stop : Nat) :
      (storedAll list).all (·.span.stop < stop) = list.all (·.span.stop < stop) := by
    induction list with
    | nil => rfl
    | cons first rest ih => rw [storedAll,List.all_cons,List.all_cons,stored_span,ih]
  fun_induction isSealed e with
  | case2 outer type args dims initializer body span => simp only [stored,isSealed,listed]
  | case4 array position span => simp only [stored,isSealed,stored_span]
  | case5 op operand span ih => exact ih
  | case6 inner span => simp only [stored,isSealed,stored_span,primitive]
  | case7 e literal create field index unary paren =>
    cases e with
    | literal => exact (literal _ _ _ rfl).elim
    | create => exact (create _ _ _ _ _ _ _ rfl).elim
    | field => exact (field _ _ _ rfl).elim
    | index => exact (index _ _ _ rfl).elim
    | paren => exact (paren _ _ rfl).elim
    | unary op leading =>
      cases leading with
      | true => exact (unary _ _ _ rfl).elim
      | false => rfl
    | _ => rfl
  | _ => rfl

/-- What is open in the tree that was read is open in the text. -/
theorem sealed_of_placed {text : Text} {e : Expr} {count : Nat}
    (fit : (e.mapSpans (Java.moved count)).Fit ((Java.tokens text).map (·.token)))
    (closed : ((e.mapSpans (Java.moved count)).mapSpans (Span.map (offset text))).isSealed = true) (other : Nat) :
    (e.mapSpans (Java.moved other)).isSealed = true := by
  -- Beyond the last boundary places have no order, and no span of the tree lies there.
  let place (boundary : Nat) := offset text (min boundary (2 * (Java.tokens text).length + 1))
  have known : (e.mapSpans (Java.moved count)).mapSpans (Span.map (offset text)) =
      (e.mapSpans (Java.moved count)).mapSpans (Span.map place) := by
    refine mapSpans_congr_all.1 _ fun span member => ?_
    obtain ⟨order,bound⟩ := fit span member
    rw [List.length_map] at bound
    simp only [Span.map,place,Nat.min_eq_left bound,Nat.min_eq_left (Nat.le_trans order bound)]
  rw [known,(mapSpans_mapSpans_all _ _).1] at closed
  refine isSealed_mapSpans (fun first second before => ?_) e closed
  by_contra late
  have order : (Java.moved count second).stop ≤ (Java.moved count first).stop := by
    simp only [Java.moved_stop] at late ⊢
    omega
  have behind : place (Java.moved count second).stop ≤ place (Java.moved count first).stop :=
    Java.offset_mono text (by omega) (Nat.min_le_right _ _)
  exact absurd before (Nat.not_lt.mpr behind)

/-- Whether both are the same name or literal, or the same operation on two such ones, their spans aside. -/
def resembles : Expr → Expr → Bool
  | .name first _,.name second _ => first == second
  | .literal kind first _,.literal other second _ => kind == other && first == second
  | .create none type [] [] none none _,.create none other [] [] none none _ => type.text == other.text
  | .field first member _,.field second other _ => resembles first second && member.text == other.text
  | .index array position _,.index other place _ => resembles array other && resembles position place
  | .unary op leading first _,.unary other ahead second _ => op == other && leading == ahead && resembles first second
  | .paren first _,.paren second _ => resembles first second
  | _,_ => false

theorem bare_of_resembles (e other : Expr) (alike : e.resembles other = true) : e.bare = other.bare := by
  fun_induction resembles e other <;>
    simp_all [bare,mapSpans,mapSpansOption,mapSpansAll,TypeRef.mapSpans,Ident.mapSpans]

end Java.Expr

/-- A number as a part of a context. -/
def Java.Phrase.one : Phrase := ⟨[⟨.number,"1"⟩],.literal .number "1" (.empty 0)⟩

theorem Java.Phrase.one_firm : Phrase.one.Firm := .of_regular (.literal .number "1" (.empty 0) (by decide +kernel))

/-- Tokens of a text that are read as an expression, complete, sealed and no operation, are a whole one. -/
theorem Java.Phrase.whole_of_ran {text : Text} {value e : Expr} {i k : Nat}
    (ran : Java.Parser.expr (.on ((tokens text).map (·.token)) i) = (value,.on ((tokens text).map (·.token)) k))
    (order : i < k) (more : k < (tokens text).length) (same : e.bare = value.bare) (single : e.isOperation = false)
    (complete : e.isComplete = true) (closed : (value.mapSpans (Span.map (offset text))).isSealed = true) :
    Phrase.Whole ⟨(((tokens text).drop i).take (k - i)).map (·.token),e⟩ (((tokens text).drop k).map (·.token)) ∧
      value.span.stop = 2 * k := by
  have length : ((tokens text).map (·.token)).length = (tokens text).length := List.length_map _
  have fit : value.Fit ((tokens text).map (·.token)) := Parser.expr_fits.known (by omega) ran
  have plain := tokens_plain text
  rw [List.map_take,List.map_drop,List.map_drop]
  generalize known : (tokens text).map (·.token) = all at ran length fit plain ⊢
  -- The tokens from the expression on, read as if none stood in front, and then behind any number of others.
  have parted : (all.drop i).take (k - i) ++ all.drop k = all.drop i := by
    have both := List.take_append_drop (k - i) (all.drop i)
    rwa [List.drop_drop,show i + (k - i) = k by omega] at both
  have size : ((all.drop i).take (k - i)).length = k - i := by
    rw [List.length_take,List.length_drop]
    omega
  obtain ⟨a,j,first,_,_⟩ := @Carries.expr (all.drop i) 0 0 (fun token member => plain token (List.mem_of_mem_drop member))
    (Nat.zero_le _)
  have again (p : Nat) : Parser.expr ⟨p,all.drop i⟩ = (a.mapSpans (moved p),⟨j + p,(all.drop i).drop j⟩) := by
    obtain ⟨b,l,ran,_,_,later⟩ := @Carries.expr (all.drop i) p 0
      (fun token member => plain token (List.mem_of_mem_drop member)) (Nat.zero_le _)
    obtain ⟨rfl,stop⟩ := Prod.mk.inj (first.symm.trans ran)
    obtain rfl : j = l := congrArg Cursor.passed stop
    change Parser.expr ⟨0 + p,all.drop i⟩ = _ at later
    rwa [Nat.zero_add] at later
  obtain ⟨rfl,stop⟩ := Prod.mk.inj ((again i).symm.trans ran)
  obtain rfl : j = k - i := by
    have passed : j + i = k := congrArg Cursor.passed stop
    omega
  have bare (p : Nat) : (a.mapSpans (moved p)).bare = e.bare :=
    ((Expr.mapSpans_bare _).1 a).trans (same.trans ((Expr.mapSpans_bare _).1 a)).symm
  have complete (p : Nat) : (a.mapSpans (moved p)).isComplete = true := by
    have bare' (e : Expr) : e.bare.isComplete = e.isComplete := (Expr.mapSpans_complete _).1 e
    rw [← bare',bare,bare',complete]
  have sealed (p : Nat) : (a.mapSpans (moved p)).isSealed = true := Expr.sealed_of_placed (known.symm ▸ fit) closed p
  refine ⟨⟨?_,single,fun p => ⟨_,bare p,complete p,sealed p,?_⟩⟩,?_⟩
  · exact List.length_pos_iff.mp (by rw [List.length_drop]; omega)
  · simp only [parted,size,again,List.drop_drop,Nat.add_comm (k - i) p]
    rw [show i + (k - i) = k by omega]
  · exact (ExprLevel.expr_settled (by omega) ran ((Expr.isOperation_of_bare (bare i)).trans single) (complete i) (sealed i)
      (by omega)).ends

theorem Java.Stmt.stored_value? (s : Stmt) : s.stored.value? = s.value?.map Expr.storedOption := by
  cases s <;> rfl

/-- The value of a `return` at the end of a body is read back from its tables with the body. -/
theorem Body.readExpr_returned {body : Body} (nested : body.Nested) {block : Block} {id : ExprId}
    (read : body.readBlock body.root = some block) (returns : body.lastReturn? = some (some id)) :
    ∃ last e, block.statements.getLast? = some last ∧ last.value? = some (some e) ∧ body.readExpr id = some e := by
  obtain ⟨root,readRoot,isBlock⟩ := Option.bind_eq_some_iff.mp read
  rw [lastReturn?_eq] at returns
  obtain ⟨node,found,value⟩ := Option.bind_eq_some_iff.mp returns
  obtain ⟨l,isLast,entered⟩ := Option.bind_eq_some_iff.mp found
  obtain ⟨span,rfl⟩ : ∃ span, node = .returns (some id) span := by
    cases node <;> cases value
    exact ⟨_,rfl⟩
  obtain ⟨front,parted⟩ := List.getLast?_eq_some_iff.mp isLast
  obtain ⟨place,rootFound⟩ : ∃ place, body.stmts[body.root]? = some (.block (front ++ [l]) place) := by
    unfold statements at parted
    split at parted
    · rename_i statements place same
      exact ⟨place,parted ▸ same⟩
    · simp at parted
  -- The block is read from its statements, and the last of them from the value.
  rw [readStmt_eq nested rootFound,StmtNode.read,List.mapM_append,List.mapM_cons,List.mapM_nil,
    readStmt_eq nested entered,StmtNode.read] at readRoot
  simp only [Option.bind_eq_bind,Option.bind_eq_some_iff,Option.pure_def,Option.some.injEq] at readRoot
  obtain ⟨all,⟨_,_,_,⟨_,⟨value,valued,rfl⟩,_,rfl,rfl⟩,rfl⟩,rfl⟩ := readRoot
  obtain ⟨e,own,rfl⟩ := Option.map_eq_some_iff.mp (by simpa using valued)
  injection isBlock with same
  subst same
  exact ⟨_,e,List.getLast?_concat,rfl,own⟩

/-- The value of a `return` at the end of a method was read from behind this word up to a semicolon, and is kept with the
places that it has in the text. -/
theorem ItemTree.returned_read {text : Text} {method : Method Body} {body : Body} {id : ExprId}
    (member : method ∈ (ofText text).methods) (given : method.body = some body)
    (returns : body.lastReturn? = some (some id)) : body.Nested ∧ ∃ value i k, i < k ∧
      Java.Seen ((Java.tokens text).map (·.token)) k .semicolon ∧
      Expr.Read ((Java.tokens text).map (·.token)) i value k ∧
      Java.Parser.expr (.on ((Java.tokens text).map (·.token)) i) = (value,.on ((Java.tokens text).map (·.token)) k) ∧
      body.readExpr id = some (value.mapSpans (Span.map (offset text))).stored := by
  rw [ofText,ofUnit_methods] at member
  obtain ⟨source,listed,rfl⟩ := List.mem_map.mp member
  obtain ⟨b,own,_⟩ := Option.map_eq_some_iff.mp given
  obtain ⟨read,rfl,isRead,_⟩ := body_read text source b listed own
  obtain ⟨_,_,again,readBlock,nested⟩ := body_readBack text source _ listed own
  obtain rfl := Option.some.inj (given.symm.trans again)
  refine ⟨nested,?_⟩
  obtain ⟨last,e,isLast,valued,kept⟩ := Body.readExpr_returned nested readBlock returns
  -- The last statement of the body in the tables is the last one that was read.
  obtain ⟨statements,around⟩ := read
  have stored (list : List Stmt) : Stmt.storedAll list = list.map Stmt.stored := by
    induction list with
    | nil => rfl
    | cons first rest ih => rw [Stmt.storedAll,ih,List.map_cons]
  simp only [Block.mapSpans,Block.stored,stored,Stmt.mapSpansAll_eq_map,List.map_map,List.getLast?_map,
    Option.map_eq_some_iff,Function.comp_apply] at isLast
  obtain ⟨source,isOwn,rfl⟩ := isLast
  rw [Java.Stmt.stored_value?,Java.Stmt.mapSpans_value?] at valued
  cases returned : source.value? with
  | none => simp [returned] at valued
  | some found =>
    cases found with
    | none => simp [returned,Expr.storedOption] at valued
    | some value =>
      obtain rfl : (value.mapSpans (Span.map (offset text))).stored = e := by
        simpa [returned,Expr.storedOption] using valued
      obtain ⟨front,rfl⟩ := List.getLast?_eq_some_iff.mp isOwn
      obtain ⟨_,_,_,_,_,reading⟩ := isRead
      obtain ⟨_,_,_,sequence,_⟩ := reading.parts
      obtain ⟨i,_,ownRead⟩ := sequence.split
      obtain ⟨k,before,semicolon,_,placed,ran⟩ := (ownRead.returned _ returned).2 value rfl
      exact ⟨value,i + 1,k,before,semicolon,placed,ran,kept⟩

namespace Donor

/-- The flag for parentheses tells whether the value is held together by an operator between its operands. -/
theorem needsParentheses_eq {text : Text} {method : Method Body} {body : Body} {id : ExprId} {e : Expr} (layout : Layout)
    (nested : body.Nested) (given : method.body = some body) (returns : body.lastReturn? = some (some id))
    (read : body.readExpr id = some e) : (ofMethod text method layout).needsParentheses = e.isOperation := by
  cases found : body.exprs[id]? with
  | none =>
    rw [Body.readExpr,found] at read
    cases read
  | some node =>
    rw [Body.readExpr_eq nested found] at read
    simp only [needsParentheses,ofMethod,given,returns,Option.bind_some,id_eq,found]
    cases node with
    | name | literal | this | super | missing =>
      obtain rfl := Option.some.inj read
      rfl
    | _ =>
      simp only [ExprNode.read,Option.bind_eq_bind,Option.bind_eq_some_iff,Option.pure_def,Option.some.injEq] at read
      obtain ⟨_,_,read⟩ := read
      first
      | obtain rfl := read; rfl
      | obtain ⟨_,_,rfl⟩ := read; rfl
      | obtain ⟨_,_,_,_,rfl⟩ := read; rfl
      | obtain ⟨_,_,_,_,_,_,rfl⟩ := read; rfl

/-- The text of a value without the flag may take the place of a name in every context, and is not split there: what is
read is the context around the value. The value is to be complete, with nothing open at its end; a place for a primary
expression has to take it; and no sign runs into the same sign at its beginning. -/
theorem value_unsplit (text : Text) (method : Method Body) (layout : Layout)
    (member : method ∈ (ItemTree.ofText text).methods) {body : Body} (given : method.body = some body) {id : ExprId}
    (returns : body.lastReturn? = some (some id)) :
    ∃ e s, body.readExpr id = some e ∧ text.slice? e.span = some s ∧
      ((ofMethod text method layout).needsParentheses = false → e.isComplete = true → e.isSealed = true →
        ∀ (context : Java.Context) (pre post : Text), context.Admits → context.Written pre post →
          (∀ frame ∈ context.head?, frame.Takes ⟨(Java.tokens s).map (·.token),e⟩) → ¬ context.Glues pre s →
            (context.build e).MeantBy (pre ++ (s ++ post))) := by
  obtain ⟨nested,value,i,k,before,semicolon,placed,ran,read⟩ := ItemTree.returned_read member given returns
  have more : k < (Java.tokens text).length := by simpa using semicolon.lt
  have order : value.span.start ≤ value.span.stop := placed.order
  have known : value.span.stop ≤ 2 * (Java.tokens text).length + 1 := by
    have := placed.stop
    omega
  refine ⟨_,text.between (offset text value.span.start) (offset text value.span.stop),read,?_,
    fun loose complete closed context pre post admits written takes apart => ?_⟩
  · rw [Expr.stored_span,Expr.mapSpans_span]
    exact text.slice?_eq_some _ (Java.offset_mono text order known) (Java.offset_isBoundary text _)
      (Java.offset_isBoundary text _)
  rw [needsParentheses_eq layout nested given returns read] at loose
  rw [Expr.stored_sealed] at closed
  have same : (value.mapSpans (Span.map (offset text))).stored.bare = value.bare :=
    (Expr.stored_bare.1 _).trans ((Expr.mapSpans_bare _).1 value)
  obtain ⟨whole,stop⟩ := Java.Phrase.whole_of_ran ran before more same loose complete closed
  rw [placed.start,stop] at takes apart ⊢
  rw [Java.tokens_between text before (Nat.le_of_lt more),← List.map_drop,← List.map_take] at takes
  refine written.filled admits whole takes (Java.scanned_between text before (Nat.le_of_lt more)) ?_ rfl apart
  have found := List.getElem?_eq_getElem (show i < (Java.tokens text).length by omega)
  refine ⟨(Java.tokens text)[i],?_,congrArg Span.start (Java.token_span found)⟩
  rw [List.head?_take,if_neg (by omega),List.head?_drop,found]
  rfl

/-- An element of an array keeps together where a method of it is called and the result is taken from a number. -/
theorem value_unsplit_receiver : ∃ text : Text, text = "class A { int m(int[] p) { return p[1]; } }".toList ∧
    ∃ method ∈ (ItemTree.ofText text).methods, ∃ body ∈ method.body, ∃ id ∈ body.lastReturn?.join,
      ∃ e ∈ body.readExpr id, text.slice? e.span = some "p[1]".toList ∧
        (Java.Context.build e [.member "g",.called [.one],.rightOf .one .sub]).MeantBy "1 - p[1].g(1)".toList := by
  have evaluated : ∃ method ∈ (ItemTree.ofText "class A { int m(int[] p) { return p[1]; } }".toList).methods,
      ∃ body ∈ method.body, ∃ id ∈ body.lastReturn?.join, ∃ e ∈ body.readExpr id,
        Text.slice? "class A { int m(int[] p) { return p[1]; } }".toList e.span = some "p[1]".toList ∧
          (ofMethod "class A { int m(int[] p) { return p[1]; } }".toList method .standard).needsParentheses = false ∧
            e.isComplete = true ∧ e.isSealed = true ∧ 13 ≤ e.rank := by
    decide +kernel
  obtain ⟨method,listed,body,given,id,returns,e,read,sliced,loose,complete,closed,rank⟩ := evaluated
  have found : body.lastReturn? = some (some id) := Option.join_eq_some_iff.mp returns
  obtain ⟨_,_,again,own,unsplit⟩ := value_unsplit _ method .standard listed given found
  obtain rfl := Option.some.inj (again.symm.trans read)
  obtain rfl := Option.some.inj (own.symm.trans sliced)
  refine ⟨_,rfl,method,listed,body,given,id,returns,_,read,sliced,
    unsplit loose complete closed [.member "g",.called [.one],.rightOf .one .sub] "1 - ".toList ".g(1)".toList ?_ ?_ ?_ ?_⟩
  · exact ⟨⟨by decide,by decide⟩,⟨rfl,fun arg among => List.mem_singleton.mp among ▸ Phrase.one_firm⟩,
      ⟨by decide,Phrase.one_firm,by decide,nofun⟩,trivial⟩
  · exact .of_cut "b".toList 2 (by decide +kernel) (by decide +kernel) (by decide +kernel)
  · intro frame first
    obtain rfl := Option.some.inj first
    exact rank
  · rintro ⟨sign,signs,_,ends,_⟩
    obtain rfl : ' ' = sign := Option.some.inj ends
    exact absurd signs (by decide)

/-- A class with a method that returns the value. -/
def returning (value : String) : Text := ("class A \x7b int m() \x7b return " ++ value ++ "; \x7d \x7d").toList

/-- The value has no flag, and its own text is read in full as this value, but splits in the context. -/
def Splits (value : String) (context : Java.Context) (pre post : String) : Prop :=
  ∃ method ∈ (ItemTree.ofText (returning value)).methods, ∃ body ∈ method.body, ∃ id ∈ body.lastReturn?.join,
    ∃ e ∈ body.readExpr id, ∃ s ∈ (returning value).slice? e.span,
      (ofMethod (returning value) method .standard).needsParentheses = false ∧ e.isComplete = true ∧ e.MeantBy s ∧
        context.Admits ∧ context.Written pre.toList post.toList ∧
          ¬ (context.build e).MeantBy (pre.toList ++ (s ++ post.toList))

theorem splits_of {value pre post : String} {context : Java.Context} (admits : context.Admits)
    (written : context.Written pre.toList post.toList)
    (evaluated : ∃ method ∈ (ItemTree.ofText (returning value)).methods,
      ∃ body ∈ method.body, ∃ id ∈ body.lastReturn?.join, ∃ e ∈ body.readExpr id, ∃ s ∈ (returning value).slice? e.span,
        (ofMethod (returning value) method .standard).needsParentheses = false ∧ e.isComplete = true ∧
          ((Java.parseExpr s).resembles e = true ∧ (Java.Parser.expr ⟨0,(Java.tokens s).map (·.token)⟩).2.rest = []) ∧
            ((Java.parseExpr (pre.toList ++ (s ++ post.toList))).rank ≠ (context.build e).rank ∨
              (Java.parseExpr (pre.toList ++ (s ++ post.toList))).isCreation ≠ (context.build e).isCreation ∨
              (Java.Parser.expr ⟨0,(Java.tokens (pre.toList ++ (s ++ post.toList))).map (·.token)⟩).2.rest ≠ [])) :
    Splits value context pre post := by
  obtain ⟨method,listed,body,given,id,returns,e,read,s,sliced,loose,complete,own,split⟩ := evaluated
  refine ⟨method,listed,body,given,id,returns,e,read,s,sliced,loose,complete,
    ⟨Expr.bare_of_resembles _ _ own.1,own.2⟩,admits,written,fun meant => ?_⟩
  obtain rank | creation | left := split
  · exact rank (Expr.rank_of_bare meant.same)
  · exact creation (Expr.isCreation_of_bare meant.same)
  · exact left meant.whole

/-- None of the conditions can be left out: values that split in a context which would take a name. -/
theorem value_split :
    -- a prefix operator in front of a member, and one behind the same sign
    Splits "-a" [.member "f"] "" ".f" ∧ Splits "-a" [.rightOf .one .sub] "1-" "" ∧
    -- an array without elements in front of another bracket, and what cannot be called
    Splits "new int[]" [.elementOf .one] "" "[1]" ∧ Splits "a[0]" [.called []] "" "()" ∧
    -- something open at the end: a bracket, a parenthesis, a quote, a member, a type
    Splits "a[0" [.leftOf .add .one] "" "+1" ∧ Splits "(a" [.leftOf .add .one] "" "+1" ∧
    Splits "'b\n" [.leftOf .add .one] "" "+1" ∧ Splits "a." [.tested ⟨"T",.empty 0⟩] "" " instanceof T" ∧
    Splits "new A" [.member "f"] "" ".f" ∧
    -- a primitive type in parentheses
    Splits "(int)" [.leftOf .add .one] "" "+1" ∧ Splits "int" [.paren,.leftOf .add .one] "(" ")+1" := by
  have member : Java.Context.Admits [.member "f"] := ⟨⟨by decide,by decide⟩,trivial⟩
  have added : Java.Context.Admits [.leftOf .add .one] := ⟨⟨by decide,nofun,Phrase.one_firm,by decide⟩,trivial⟩
  have behind : Java.Context.Written [.leftOf .add .one] [] "+1".toList :=
    .of_cut "b".toList 0 (by decide +kernel) (by decide +kernel) (by decide +kernel)
  have named : Java.Context.Written [.member "f"] [] ".f".toList :=
    .of_cut "b".toList 0 (by decide +kernel) (by decide +kernel) (by decide +kernel)
  refine ⟨splits_of member named (by decide +kernel),splits_of ?_ ?_ (by decide +kernel),
    splits_of ?_ ?_ (by decide +kernel),splits_of ?_ ?_ (by decide +kernel),splits_of added behind (by decide +kernel),
    splits_of added behind (by decide +kernel),splits_of added behind (by decide +kernel),
    splits_of ?_ ?_ (by decide +kernel),splits_of member named (by decide +kernel),
    splits_of added behind (by decide +kernel),splits_of ?_ ?_ (by decide +kernel)⟩
  · exact ⟨⟨by decide,Phrase.one_firm,by decide,nofun⟩,trivial⟩
  · exact .of_cut "b".toList 2 (by decide +kernel) (by decide +kernel) (by decide +kernel)
  · exact ⟨⟨by decide,fun unfilled => Bool.noConfusion unfilled.1,Phrase.one_firm⟩,trivial⟩
  · exact .of_cut "b".toList 0 (by decide +kernel) (by decide +kernel) (by decide +kernel)
  · exact ⟨⟨by decide,nofun⟩,trivial⟩
  · exact .of_cut "b".toList 0 (by decide +kernel) (by decide +kernel) (by decide +kernel)
  · exact ⟨⟨by decide,.simple (by decide +kernel) (by decide) _⟩,trivial⟩
  · exact .of_cut "b".toList 0 (by decide +kernel) (by decide +kernel) (by decide +kernel)
  · exact ⟨trivial,⟨by decide,nofun,Phrase.one_firm,by decide⟩,trivial⟩
  · exact .of_cut "b".toList 1 (by decide +kernel) (by decide +kernel) (by decide +kernel)

end Donor
end Transplant
