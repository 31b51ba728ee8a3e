import Transplant.Proofs.Java.Fits

/-! The parts of expressions in the spans of expressions. A part begins inside and ends inside, unless it ends with
something that is missing: that stands before the next token, and what is around it may end behind the token before. -/
namespace Transplant.Java

open Token (Kind)
open Reads

/-- A part by its span, and whether it ends with something missing. -/
structure Part where
  span : Span
  isOpen : Bool

def Part.mapSpan (f : Span → Span) (part : Part) : Part := ⟨f part.span,part.isOpen⟩

/-- A type that is missing has no text. -/
def TypeRef.part (type : TypeRef) : Part := ⟨type.span,type.text == ""⟩

namespace Expr

/-- Whether the expression ends with one that is missing. -/
def isOpen : Expr → Bool
  | .missing _ => true
  | .unary _ leading operand _ => leading && operand.isOpen
  | .binary _ _ right _ => right.isOpen
  | .assign _ _ right _ => right.isOpen
  | .conditional _ _ no _ => no.isOpen
  | _ => false

def part (e : Expr) : Part := ⟨e.span,e.isOpen⟩

/-- The expressions directly inside an expression. -/
def inner : Expr → List Expr
  | .call callee args _ => callee :: args
  | .create outer _ args dims initializer _ _ => outer.toList ++ (args ++ (dims ++ initializer.toList))
  | .field receiver _ _ => [receiver]
  | .index array position _ => [array,position]
  | .unary _ _ operand _ => [operand]
  | .binary _ left right _ => [left,right]
  | .instanceOf operand _ _ => [operand]
  | .assign _ left right _ => [left,right]
  | .conditional condition yes no _ => [condition,yes,no]
  | .paren content _ => [content]
  | .arrayInit elements _ => elements
  | _ => []

/-- The types, names and bodies directly in an expression. -/
def labels : Expr → List Part
  | .create _ type _ _ _ body _ => type.part :: body.toList.map fun span => ⟨span,false⟩
  | .field _ member _ => [⟨member.span,false⟩]
  | .instanceOf _ type _ => [type.part]
  | _ => []

def parts (e : Expr) : List Part := e.inner.map part ++ e.labels

/-- The first expression is the second one or stands inside it, at any depth. -/
inductive Within : Expr → Expr → Prop where
  | self (e : Expr) : Within e e
  | inside {e x outer : Expr} (inner : x ∈ outer.inner) (rest : Within e x) : Within e outer

/-- In the expression and in all inside it, the parts lie as it is said. -/
inductive Nested (lies : Span → Part → Prop) : Expr → Prop where
  | mk {e : Expr} (own : ∀ part ∈ e.parts, lies e.span part) (rest : ∀ x ∈ e.inner, Nested lies x) : Nested lies e

theorem Nested.within {lies : Span → Part → Prop} {e outer : Expr} (nested : outer.Nested lies)
    (inside : e.Within outer) : ∀ part ∈ e.parts, lies e.span part := by
  induction inside with
  | self =>
    cases nested with
    | mk own _ => exact own
  | inside inner _ ih =>
    cases nested with
    | mk _ rest => exact ih (rest _ inner)

section

variable (f : Span → Span)

theorem isOpen_mapSpans : ∀ e : Expr, (e.mapSpans f).isOpen = e.isOpen
  | .missing _ => rfl
  | .unary _ _ operand _ => by simp only [mapSpans,isOpen,isOpen_mapSpans operand]
  | .binary _ _ right _ => by simp only [mapSpans,isOpen,isOpen_mapSpans right]
  | .assign _ _ right _ => by simp only [mapSpans,isOpen,isOpen_mapSpans right]
  | .conditional _ _ no _ => by simp only [mapSpans,isOpen,isOpen_mapSpans no]
  | .name _ _ | .literal _ _ _ | .this _ | .super _ | .call _ _ _ | .create _ _ _ _ _ _ _ | .field _ _ _ | .index _ _ _
  | .instanceOf _ _ _ | .paren _ _ | .arrayInit _ _ => rfl

theorem part_mapSpans (e : Expr) : (e.mapSpans f).part = e.part.mapSpan f := by
  simp only [part,Part.mapSpan,mapSpans_span,isOpen_mapSpans]

theorem inner_mapSpans (e : Expr) : (e.mapSpans f).inner = e.inner.map (mapSpans f) := by
  cases e <;> simp [mapSpans,inner,mapSpansAll_eq_map,mapSpansOption_eq,Option.toList_map]

theorem labels_mapSpans (e : Expr) : (e.mapSpans f).labels = e.labels.map (Part.mapSpan f) := by
  cases e <;> simp [mapSpans,labels,Part.mapSpan,TypeRef.part,TypeRef.mapSpans,Ident.mapSpans,Option.toList_map]

theorem parts_mapSpans (e : Expr) : (e.mapSpans f).parts = e.parts.map (Part.mapSpan f) := by
  simp only [parts,inner_mapSpans,labels_mapSpans,List.map_append,List.map_map]
  congr 2
  exact funext fun x => x.part_mapSpans f

theorem Nested.mapSpans {lies after : Span → Part → Prop} {f : Span → Span}
    (kept : ∀ around part, lies around part → after (f around) (part.mapSpan f)) {e : Expr} (nested : e.Nested lies) :
    (e.mapSpans f).Nested after := by
  induction nested with
  | @mk e own _ ih =>
    refine .mk ?_ ?_
    · rw [parts_mapSpans,mapSpans_span]
      exact List.forall_mem_map.mpr fun part member => kept _ _ (own part member)
    · rw [inner_mapSpans]
      exact List.forall_mem_map.mpr ih

end

end Expr

/-- Among the boundaries of so many tokens, the part lies in a span, or reaches from the end of a token there to the
start of the next one. -/
structure Part.Lies (count : Nat) (around : Span) (part : Part) : Prop where
  start : around.start ≤ part.span.start
  order : part.span.start ≤ part.span.stop
  known : part.span.stop ≤ 2 * count + 1 ∧ around.stop ≤ 2 * count + 1
  stop : part.span.stop ≤ around.stop ∨
    part.isOpen = true ∧ ∃ j, around.stop = 2 * j ∧ part.span.stop = 2 * j + 1

variable {tokens : List Token} {i j k m : Nat}

/-- The expression stands from token `i` to before token `j`, with its parts inside. -/
structure Expr.Held (tokens : List Token) (i : Nat) (e : Expr) (j : Nat) : Prop where
  inside : i ≤ j ∧ j ≤ tokens.length
  start : e.span.start = 2 * i + 1
  order : e.span.start ≤ e.span.stop
  stop : e.span.stop ≤ 2 * j ∨ e.span.stop = 2 * j + 1 ∧ e.isOpen = true
  nested : e.Nested (Part.Lies tokens.length)

/-- The expression stands somewhere from token `i` on and before token `j`. -/
def Expr.HeldIn (tokens : List Token) (i j : Nat) (e : Expr) : Prop := ∃ k m, i ≤ k ∧ m ≤ j ∧ Expr.Held tokens k e m

def Expr.HeldAll (tokens : List Token) (list : List Expr) (i j : Nat) : Prop :=
  i ≤ j ∧ ∀ x ∈ list, x.HeldIn tokens i j

namespace Expr

theorem HeldIn.mono {e : Expr} (held : e.HeldIn tokens k m) (low : i ≤ k) (high : m ≤ j) : e.HeldIn tokens i j := by
  obtain ⟨a,b,before,behind,own⟩ := held
  exact ⟨a,b,Nat.le_trans low before,Nat.le_trans behind high,own⟩

theorem Held.heldIn {e : Expr} (held : Held tokens i e j) : e.HeldIn tokens i j :=
  ⟨i,j,Nat.le_refl i,Nat.le_refl j,held⟩

theorem HeldIn.nested {e : Expr} (held : e.HeldIn tokens i j) : e.Nested (Part.Lies tokens.length) := by
  obtain ⟨_,_,_,_,own⟩ := held
  exact own.nested

/-- What is around the expression ends with a token behind it. -/
theorem HeldIn.lies {e : Expr} {around : Span} (held : e.HeldIn tokens i j) (start : around.start ≤ 2 * i + 1)
    (stop : around.stop = 2 * j) (bound : j ≤ tokens.length) : e.part.Lies tokens.length around := by
  obtain ⟨k,m,low,high,own⟩ := held
  have first := own.start
  have inside := own.inside
  have ends := own.stop
  refine ⟨show _ ≤ e.span.start by omega,own.order,⟨show e.span.stop ≤ _ by omega,by omega⟩,?_⟩
  rcases ends with ends | ⟨ends,missing⟩
  · exact .inl (show e.span.stop ≤ _ by omega)
  · rcases Nat.lt_or_ge m j with before | last
    · exact .inl (show e.span.stop ≤ _ by omega)
    · exact .inr ⟨missing,m,by omega,ends⟩

/-- What is around the expression ends behind the token that follows. -/
theorem HeldIn.lies_ahead {e : Expr} {around : Span} (held : e.HeldIn tokens i j) (start : around.start ≤ 2 * i + 1)
    (stop : 2 * j + 1 ≤ around.stop) (known : around.stop ≤ 2 * tokens.length + 1) :
    e.part.Lies tokens.length around := by
  obtain ⟨k,m,low,high,own⟩ := held
  have first := own.start
  have inside := own.inside
  have ends := own.stop
  exact ⟨show _ ≤ e.span.start by omega,own.order,⟨show e.span.stop ≤ _ by omega,known⟩,
    .inl (show e.span.stop ≤ _ by omega)⟩

/-- An expression that ends with its last token. -/
theorem Held.closed {e : Expr} (before : i < j) (bound : j ≤ tokens.length) (span : e.span = .upTo (2 * i + 1) (2 * j))
    (inner : ∀ x ∈ e.inner, x.HeldIn tokens i j)
    (labels : ∀ part ∈ e.labels, part.Lies tokens.length ⟨2 * i + 1,2 * j⟩) : Held tokens i e j := by
  rw [Span.upTo_eq (by omega)] at span
  refine ⟨⟨Nat.le_of_lt before,bound⟩,by rw [span],?_,.inl (Nat.le_of_eq (by rw [span])),
    .mk ?_ fun x member => (inner x member).nested⟩
  · rw [span]
    exact show 2 * i + 1 ≤ 2 * j by omega
  · rw [span]
    refine List.forall_mem_append.mpr ⟨List.forall_mem_map.mpr fun x member => ?_,labels⟩
    exact (inner x member).lies (Nat.le_refl _) rfl bound

/-- An expression that ends with its last operand. -/
theorem Held.operated {e last : Expr} (low : i ≤ k) (held : Held tokens k last j)
    (span : e.span = .upTo (2 * i + 1) last.span.stop) (opened : e.isOpen = last.isOpen) (unlabelled : e.labels = [])
    (inner : ∀ x ∈ e.inner, x = last ∨ x.HeldIn tokens i k) : Held tokens i e j := by
  have start := held.start
  have order := held.order
  have inside := held.inside
  have stop := held.stop
  rw [Span.upTo_eq (by omega)] at span
  refine ⟨⟨by omega,inside.2⟩,by rw [span],by rw [span]; exact show 2 * i + 1 ≤ last.span.stop by omega,?_,.mk ?_ ?_⟩
  · rw [span,opened]
    exact stop
  · rw [span,parts,unlabelled,List.append_nil]
    refine List.forall_mem_map.mpr fun x member => ?_
    rcases inner x member with rfl | earlier
    · exact ⟨show 2 * i + 1 ≤ x.span.start by omega,order,⟨show x.span.stop ≤ _ by omega,show x.span.stop ≤ _ by omega⟩,
        .inl (Nat.le_refl _)⟩
    · exact earlier.lies_ahead (Nat.le_refl _) (show 2 * k + 1 ≤ last.span.stop by omega)
        (show last.span.stop ≤ _ by omega)
  · intro x member
    rcases inner x member with rfl | earlier
    · exact held.nested
    · exact earlier.nested

theorem held_missing {span : Span} (inside : i ≤ j ∧ j ≤ tokens.length) (start : span.start = 2 * i + 1)
    (order : span.start ≤ span.stop) (stop : span.stop ≤ 2 * j + 1) : Held tokens i (.missing span) j := by
  refine ⟨inside,start,order,?_,.mk nofun nofun⟩
  rcases Nat.lt_or_ge (2 * j) span.stop with behind | before
  · exact .inr ⟨show span.stop = _ by omega,rfl⟩
  · exact .inl before

theorem held_nothing (inside : i ≤ tokens.length) : Held tokens i (.missing (.empty (2 * i + 1))) i :=
  held_missing ⟨Nat.le_refl i,inside⟩ rfl (Nat.le_refl _) (Nat.le_refl _)

theorem held_token {e : Expr} (here : i < tokens.length) (span : e.span = ⟨2 * i + 1,2 * i + 2⟩) (plain : e.inner = [])
    (unlabelled : e.labels = []) : Held tokens i e (i + 1) := by
  refine .closed (Nat.lt_succ_self i) here (span.trans (Span.upTo_eq (by omega)).symm) ?_ ?_
  · rw [plain]
    exact nofun
  · rw [unlabelled]
    exact nofun

theorem HeldAll.nil (i : Nat) : HeldAll tokens [] i i := ⟨Nat.le_refl i,nofun⟩

theorem HeldAll.cons (e : Expr) (list : List Expr) (i m j : Nat) (first : Held tokens i e m)
    (rest : HeldAll tokens list m j) : HeldAll tokens (e :: list) i j := by
  have inside := first.inside
  refine ⟨Nat.le_trans inside.1 rest.1,List.forall_mem_cons.mpr ⟨first.heldIn.mono (Nat.le_refl i) rest.1,?_⟩⟩
  exact fun x member => (rest.2 x member).mono inside.1 (Nat.le_refl j)

theorem HeldAll.comma (list : List Expr) (i j : Nat) (_ : Seen tokens i .comma) (rest : HeldAll tokens list (i + 1) j) :
    HeldAll tokens list i j :=
  ⟨Nat.le_of_succ_le rest.1,fun x member => (rest.2 x member).mono (Nat.le_succ i) (Nat.le_refl j)⟩

theorem HeldAll.append_one {list : List Expr} {e : Expr} (first : HeldAll tokens list i m) (last : Held tokens m e j) :
    HeldAll tokens (list ++ [e]) i j := by
  have inside := last.inside
  refine ⟨Nat.le_trans first.1 inside.1,List.forall_mem_append.mpr ⟨fun x member => ?_,?_⟩⟩
  · exact (first.2 x member).mono (Nat.le_refl i) inside.1
  · exact List.forall_mem_singleton.mpr (last.heldIn.mono first.1 (Nat.le_refl j))

theorem held_word (word : String) (here : i < tokens.length) :
    Held tokens i (ExprLevel.wordExpr word ⟨2 * i + 1,2 * i + 2⟩) (i + 1) := by
  unfold ExprLevel.wordExpr
  repeat' split
  all_goals exact held_token here rfl rfl rfl

end Expr

/-- A token that stands there is taken. -/
theorem Reads.expectSeen {kind : Kind} (seen : Seen tokens i kind) : Reads tokens (Parser.expect kind) i fun ident j =>
    ident.span = ⟨2 * i + 1,2 * i + 2⟩ ∧ j = i + 1 := by
  refine expect.mono fun ident j known _ => ?_
  rcases known with ⟨_,_,_,rfl,rfl⟩ | ⟨unseen,_⟩
  · exact ⟨rfl,rfl⟩
  · exact absurd seen unseen

theorem Reads.skipBraces (brace : Seen tokens i .braceOpen) :
    Reads tokens (Parser.skipNested .braceOpen .braceClose) i fun _ j => i < j := by
  refine eat (fun seen => (skipBy _).mono fun _ _ stop _ => ?_) fun unseen => absurd brace unseen
  have here := seen.lt
  omega

/-- A type that may be missing ends with its last token or, without text, where it begins. -/
theorem Reads.typeRefOrEmpty_held : Reads tokens Parser.typeRefOrEmpty i fun type j =>
    i ≤ j ∧ type.span.start = 2 * i + 1 ∧ type.span.start ≤ type.span.stop ∧
      (type.span.stop ≤ 2 * j ∨ type.span.stop = 2 * j + 1 ∧ type.part.isOpen = true) := by
  refine bind typeRef fun found j known _ => ?_
  rcases known with ⟨rfl,_,rfl⟩ | ⟨type,rfl,_,on,span⟩
  · exact nextStart (pure ⟨Nat.le_refl _,rfl,Nat.le_refl _,.inr ⟨rfl,rfl⟩⟩)
  · refine pure ⟨Nat.le_of_lt on,by rw [span],?_,.inl (Nat.le_of_eq (by rw [span]))⟩
    rw [span]
    exact show 2 * i + 1 ≤ 2 * j by omega

/-- What is around the type ends with a token behind it. -/
theorem TypeRef.part_lies {type : TypeRef} {start : Nat} (inside : m ≤ j) (bound : j ≤ tokens.length)
    (begins : start ≤ type.span.start) (order : type.span.start ≤ type.span.stop)
    (stop : type.span.stop ≤ 2 * m ∨ type.span.stop = 2 * m + 1 ∧ type.part.isOpen = true) :
    type.part.Lies tokens.length ⟨start,2 * j⟩ := by
  refine ⟨begins,order,⟨show type.span.stop ≤ _ by omega,show 2 * j ≤ _ by omega⟩,?_⟩
  rcases stop with stop | ⟨stop,missing⟩
  · exact .inl (show type.span.stop ≤ 2 * j by omega)
  · rcases Nat.lt_or_ge m j with before | last
    · exact .inl (show type.span.stop ≤ 2 * j by omega)
    · exact .inr ⟨missing,j,rfl,show type.span.stop = 2 * j + 1 by omega⟩

/-- The readers that expressions inside expressions are read with give expressions with their parts inside. -/
structure ExprReaders.Hold (tokens : List Token) (inner : ExprReaders) : Prop where
  expr : ∀ i, Reads tokens inner.expr i (Expr.Held tokens i)
  conditional : ∀ i, Reads tokens inner.conditional i (Expr.Held tokens i)
  binary : ∀ least i, Reads tokens (inner.binary least) i (Expr.Held tokens i)
  unary : ∀ i, Reads tokens inner.unary i (Expr.Held tokens i)
  initializer : ∀ i, Reads tokens inner.initializer i (Expr.Held tokens i)

namespace ExprLevel

open Java.Expr (Held HeldIn HeldAll)

theorem unread_held (close : Kind) : Reads tokens (unread close) i (Held tokens i) := by
  refine nextStart (bind (skipOutside _ _) fun _ j ⟨on,_⟩ bound => spanFrom (pure ?_))
  exact Expr.held_missing ⟨on,bound⟩ rfl (Span.upTo_ordered _ _) (Nat.max_le.mpr ⟨by omega,Nat.le_succ _⟩)

theorem separated_held {item : Parser Expr} (stops : List Kind) (each : ∀ k, Reads tokens item k (Held tokens k)) :
    Reads tokens (Parser.separated stops item) i fun list j => HeldAll tokens list i j :=
  separated (HeldAll tokens) HeldAll.nil (fun e list k m j => HeldAll.cons e list k m j) HeldAll.comma each

variable {inner : ExprReaders} (hold : inner.Hold tokens)

include hold

theorem argList_held (opening : Seen tokens i .parenOpen) :
    Reads tokens (argList inner) i fun args j => i < j ∧ HeldAll tokens args i j := by
  refine bind (expectSeen opening).discard fun _ k ⟨_,after⟩ _ => ?_
  refine bind (separated_held _ hold.expr) fun args l read _ => get ?_
  have closed (all : List Expr) (m : Nat) (read : HeldAll tokens all k m) : Reads tokens (do
      discard (Parser.expect .parenClose)
      return all) m fun args j => i < j ∧ HeldAll tokens args i j := by
    refine bind expectOn.discard fun _ j ⟨_,on⟩ _ => pure ?_
    have further := read.1
    exact ⟨by omega,by omega,fun x member => (read.2 x member).mono (by omega) on⟩
  exact ite (fun _ => closed args l read) fun _ =>
    bind (unread_held _) fun _ m last _ => closed _ m (read.append_one last)

theorem arrayInit_held (opening : Seen tokens i .braceOpen) : Reads tokens (arrayInit inner) i (Held tokens i) := by
  refine bind (expectSeen opening) fun brace k ⟨place,after⟩ _ => ?_
  refine bind (separated_held _ hold.initializer) fun elements l read _ => ?_
  have closed (all : List Expr) (m : Nat) (read : HeldAll tokens all k m) : Reads tokens (do
      discard (Parser.expect .braceClose)
      return .arrayInit all (← Parser.spanFrom brace.span.start)) m (Held tokens i) := by
    refine bind expectOn.discard fun _ j ⟨_,on⟩ bound => spanFrom (pure ?_)
    have further := read.1
    refine .closed (by omega) bound (by rw [place]; rfl) (fun x member => ?_) nofun
    exact (read.2 x member).mono (by omega) on
  exact sees (fun _ => closed elements l read) fun _ =>
    bind (unread_held _) fun _ m last _ => closed _ m (read.append_one last)

theorem arrayDims_held : Reads tokens (arrayDims inner) i fun dims j => HeldAll tokens (dims.filterMap id) i j := by
  refine many (fun dims k j => HeldAll tokens (dims.filterMap id) k j) HeldAll.nil fun k _ => ?_
  refine eat (fun _ => ?_) fun _ => pure ⟨Nat.le_refl k,fun _ => rfl,nofun⟩
  have closed (length : Option Expr) (l : Nat) (read : HeldAll tokens length.toList (k + 1) l) :
      Reads tokens (do discard (Parser.expect .bracketClose); return some length) l fun next m =>
        k ≤ m ∧ (next = none → m = k) ∧ ∀ dim, next = some dim → ∀ list j,
          HeldAll tokens (list.filterMap id) m j → HeldAll tokens ((dim :: list).filterMap id) k j := by
    refine bind expectOn.discard fun _ m ⟨_,on⟩ _ => pure ⟨Nat.le_trans (Nat.le_of_succ_le read.1) on,nofun,?_⟩
    rintro _ ⟨⟩ list j rest
    have all : (length :: list).filterMap id = length.toList ++ list.filterMap id := by cases length <;> rfl
    rw [all]
    refine ⟨by have := read.1; have := rest.1; omega,List.forall_mem_append.mpr ⟨fun x member => ?_,fun x member => ?_⟩⟩
    · exact (read.2 x member).mono (Nat.le_succ k) (Nat.le_trans on rest.1)
    · exact (rest.2 x member).mono (Nat.le_trans (Nat.le_of_succ_le read.1) on) (Nat.le_refl j)
  exact sees (fun _ => closed none _ (HeldAll.nil _)) fun _ =>
    bind (hold.expr _) fun e l read _ => closed (some e) l (HeldAll.cons e [] _ l l read (.nil l))

/-- A creation ends with its arguments, its body, its dimensions or its elements. -/
theorem creation_held {outer : Option Expr} (low : i < k) (front : ∀ x ∈ outer.toList, x.HeldIn tokens i k) :
    Reads tokens (creation inner outer (2 * i + 1)) k (Held tokens i) := by
  refine bind (skipNested _ _) fun _ l skipped _ => bind typeRefOrEmpty_held fun type m ⟨on,begins,order,stop⟩ _ => ?_
  have typed {j : Nat} (further : m ≤ j) (bound : j ≤ tokens.length) :
      type.part.Lies tokens.length ⟨2 * i + 1,2 * j⟩ :=
    TypeRef.part_lies further bound (by omega) order stop
  have before {x : Expr} {j : Nat} (member : x ∈ outer.toList) (further : m ≤ j) : x.HeldIn tokens i j :=
    (front x member).mono (Nat.le_refl i) (by omega)
  refine sees (fun opening => ?_) fun _ => ?_
  · refine bind (argList_held hold opening) fun args n ⟨further,read⟩ _ => nextStart ?_
    have parts {j : Nat} (body : Option Span) (last : n ≤ j) (span : Span) :
        ∀ x ∈ (Expr.create outer type args [] none body span).inner, x.HeldIn tokens i j := by
      refine List.forall_mem_append.mpr ⟨fun x member => before member (by omega),?_⟩
      exact List.forall_mem_append.mpr ⟨fun x member => (read.2 x member).mono (by omega) last,nofun⟩
    refine sees (fun brace => ?_) fun _ => ?_
    · refine bind (skipBraces brace) fun _ j inside bound => spanFrom (spanFrom (pure ?_))
      refine .closed (by omega) bound rfl (parts _ (Nat.le_of_lt inside) _)
        (List.forall_mem_cons.mpr ⟨typed (by omega) bound,?_⟩)
      refine List.forall_mem_singleton.mpr ?_
      rw [Span.upTo_eq (by omega)]
      exact ⟨show 2 * i + 1 ≤ 2 * n + 1 by omega,show 2 * n + 1 ≤ 2 * j by omega,
        ⟨show 2 * j ≤ _ by omega,show 2 * j ≤ _ by omega⟩,.inl (Nat.le_refl _)⟩
    · refine assume fun bound => spanFrom (pure (.closed (by omega) bound rfl (parts _ (Nat.le_refl n) _) ?_))
      exact List.forall_mem_singleton.mpr (typed (by omega) bound)
  · refine bind (arrayDims_held hold) fun dims n read _ => ?_
    have finish (initializer : Option Expr) (j : Nat) (last : HeldAll tokens initializer.toList n j) :
        Reads tokens (do
          return .create outer type [] (dims.filterMap id) initializer none (← Parser.spanFrom (2 * i + 1)))
          j (Held tokens i) := by
      have further := read.1
      have ends := last.1
      refine assume fun bound => spanFrom (pure (.closed (by omega) bound rfl ?_ ?_))
      · refine List.forall_mem_append.mpr ⟨fun x member => before member (by omega),List.forall_mem_append.mpr ⟨nofun,?_⟩⟩
        refine List.forall_mem_append.mpr ⟨?_,?_⟩
        · exact fun x member => (read.2 x member).mono (by omega) ends
        · exact fun x member => (last.2 x member).mono (by omega) (Nat.le_refl j)
      · exact List.forall_mem_singleton.mpr (typed (by omega) bound)
    exact sees (fun opening => bind (arrayInit_held hold opening) fun e j last _ =>
      finish (some e) j (HeldAll.cons e [] n j j last (.nil j))) fun _ => finish none n (.nil n)

theorem parenthesized_held :
    Reads tokens (parenthesized inner (2 * i + 1)) (i + 1) (Held tokens i) := by
  refine bind (hold.expr _) fun content k read _ => bind expectOn.discard fun _ l ⟨_,on⟩ _ => get ?_
  have inside := read.inside
  refine ite (fun _ => bind (hold.unary _) fun operand j last bound => pure ?_) fun _ => ?_
  · have further := last.inside
    have stop := last.stop
    exact Expr.held_missing ⟨by omega,bound⟩ rfl (Span.upTo_ordered _ _) (Nat.max_le.mpr ⟨by omega,by omega⟩)
  · refine assume fun bound => spanFrom (pure (.closed (by omega) bound rfl ?_ nofun))
    exact List.forall_mem_singleton.mpr (read.heldIn.mono (Nat.le_succ i) on)

theorem primary_held : Reads tokens (primary inner) i (Held tokens i) := by
  refine assume fun inside => get ?_
  split
  · exact pure (Expr.held_nothing inside)
  · rename_i token found
    rw [Cursor.on_next?] at found
    have here := (List.getElem?_eq_some_iff.mp found).1
    refine ite (fun _ => pure (Expr.held_nothing inside)) fun _ => skip 1 here ?_
    split
    · exact ite (fun _ => creation_held hold (Nat.lt_succ_self i) nofun) fun _ => pure (Expr.held_word _ here)
    · exact pure (Expr.held_token here rfl rfl rfl)
    · exact pure (Expr.held_token here rfl rfl rfl)
    · exact pure (Expr.held_token here rfl rfl rfl)
    · exact parenthesized_held hold
    · exact pure (Expr.held_token here rfl rfl rfl)

theorem postfixStep_held (e : Expr) (read : Held tokens i e k) :
    Reads tokens (postfixStep inner e) k fun next j => Held tokens i (next.getD e) j := by
  have low := read.inside
  have counted (op : UnaryOp) (here : k < tokens.length) :
      Held tokens i (.unary op false e (.upTo (2 * i + 1) (2 * (k + 1)))) (k + 1) :=
    .closed (by omega) here rfl (List.forall_mem_singleton.mpr (read.heldIn.mono (Nat.le_refl i) (Nat.le_succ k))) nofun
  have behind : Reads tokens (do
      if ← Parser.eat .bracketOpen then
        let position ← inner.expr
        discard (Parser.expect .bracketClose)
        return some (.index e position (← Parser.spanFrom (2 * i + 1)))
      else if ← Parser.eat .increment then
        return some (.unary .increment false e (← Parser.spanFrom (2 * i + 1)))
      else if ← Parser.eat .decrement then
        return some (.unary .decrement false e (← Parser.spanFrom (2 * i + 1)))
      else return none) k fun next j => Held tokens i (next.getD e) j := by
    refine eat (fun _ => ?_) fun _ => eat (fun seen => ?_) fun _ => eat (fun seen => ?_) fun _ => pure read
    · refine bind (hold.expr _) fun position l inside _ => bind expectOn.discard fun _ j ⟨_,on⟩ bound => spanFrom (pure ?_)
      have further := inside.inside
      refine .closed (by omega) bound rfl (List.forall_mem_cons.mpr ⟨read.heldIn.mono (Nat.le_refl i) (by omega),?_⟩) nofun
      exact List.forall_mem_singleton.mpr (inside.heldIn.mono (by omega) on)
    · exact spanFrom (pure (counted .increment seen.lt))
    · exact spanFrom (pure (counted .decrement seen.lt))
  unfold postfixStep
  rw [read.start]
  refine eat (fun dot => eatWord (fun _ => ?_) fun _ => ?_) fun _ => sees (fun opening => ?_) fun _ => ?_
  · refine bind (creation_held hold (by omega) (List.forall_mem_singleton.mpr ?_)) fun made _ given _ => pure given
    exact read.heldIn.mono (Nat.le_refl i) (by omega)
  · refine bind (skipNested _ _) fun _ l on _ => bind expect fun member j named bound => spanFrom (pure ?_)
    have after : l ≤ j ∧ 2 * i + 1 ≤ member.span.start ∧ member.span.start ≤ member.span.stop ∧ member.span.stop ≤ 2 * j := by
      rcases named with ⟨_,_,_,rfl,rfl⟩ | ⟨_,rfl,rfl⟩
      · exact ⟨by omega,show _ ≤ 2 * l + 1 by omega,show 2 * l + 1 ≤ 2 * l + 2 by omega,show 2 * l + 2 ≤ _ by omega⟩
      · exact ⟨by omega,show _ ≤ 2 * j by omega,Nat.le_refl _,Nat.le_refl _⟩
    refine .closed (by omega) bound rfl (List.forall_mem_singleton.mpr (read.heldIn.mono (Nat.le_refl i) (by omega))) ?_
    exact List.forall_mem_singleton.mpr ⟨after.2.1,after.2.2.1,⟨show member.span.stop ≤ _ by omega,show 2 * j ≤ _ by omega⟩,
      .inl after.2.2.2⟩
  · refine ite (fun _ => bind (argList_held hold opening) fun args j ⟨further,all⟩ bound => spanFrom (pure ?_))
      fun _ => behind
    refine .closed (by omega) bound rfl (List.forall_mem_cons.mpr ⟨read.heldIn.mono (Nat.le_refl i) (by omega),?_⟩) nofun
    exact fun x member => (all.2 x member).mono low.1 (Nat.le_refl j)
  · exact ite (fun isCallee => by simp at isCallee) fun _ => behind

theorem postfixed_held : Reads tokens (postfixed inner) i (Held tokens i) :=
  bind (primary_held hold) fun e _ first _ =>
    repeated (fun e j => Held tokens i e j) e first fun e _ read => postfixStep_held hold e read

theorem unary_held : Reads tokens (unary inner) i (Held tokens i) := by
  refine get ?_
  split
  · rename_i op found
    refine skip 1 (operator_quiet rfl found).1 (bind (hold.unary _) fun operand j read _ => pure ?_)
    exact .operated (Nat.le_succ i) read rfl rfl rfl (List.forall_mem_singleton.mpr (.inl rfl))
  · exact postfixed_held hold

theorem binaryStep_held (least : Nat) (left : Expr) (read : Held tokens i left k) :
    Reads tokens (binaryStep inner least left) k fun next j => Held tokens i (next.getD left) j := by
  have low := read.inside
  unfold binaryStep
  rw [read.start]
  refine get (ite (fun tested => ?_) fun _ => ?_)
  · simp only [Bool.and_eq_true,Cursor.on_seesWord_iff] at tested
    refine skip 1 tested.1.ident.lt (bind skipVariableModifiers fun _ l passed _ => ?_)
    have skipped := passed.le
    refine bind typeRefOrEmpty_held fun type m ⟨on,begins,order,stop⟩ _ => get ?_
    have finish (j : Nat) (further : m ≤ j) : Reads tokens (do
        return some (.instanceOf left type (← Parser.spanFrom (2 * i + 1)))) j
        fun next j => Held tokens i (next.getD left) j := by
      refine assume fun bound => spanFrom (pure (.closed (by omega) bound rfl ?_ ?_))
      · exact List.forall_mem_singleton.mpr (read.heldIn.mono (Nat.le_refl i) (by omega))
      · exact List.forall_mem_singleton.mpr (TypeRef.part_lies further bound (by omega) order stop)
    refine ite (fun named => ?_) fun _ => finish m (Nat.le_refl m)
    simp only [Bool.and_eq_true,Cursor.on_sees_iff] at named
    exact skip 1 named.1.lt (finish _ (Nat.le_succ m))
  · split
    · rename_i op precedence found
      refine ite (fun _ => pure read) fun _ => skip 1 (operator_quiet rfl found).1 ?_
      refine bind (hold.binary _ _) fun right j last _ => pure ?_
      exact .operated (by omega) last rfl rfl rfl (List.forall_mem_cons.mpr
        ⟨.inr (read.heldIn.mono (Nat.le_refl i) (Nat.le_succ k)),List.forall_mem_singleton.mpr (.inl rfl)⟩)
    · exact pure read

theorem binary_held (least : Nat) : Reads tokens (binary inner least) i (Held tokens i) :=
  bind (unary_held hold) fun e _ first _ =>
    repeated (fun e j => Held tokens i e j) e first fun e _ read => binaryStep_held hold least e read

theorem conditional_held : Reads tokens (conditional inner) i (Held tokens i) := by
  refine bind (binary_held hold 1) fun condition k read _ => eat (fun _ => ?_) fun _ => pure read
  refine bind (hold.expr _) fun yes l first _ => bind expectOn.discard fun _ m ⟨_,on⟩ _ => ?_
  refine bind (hold.conditional _) fun no j second _ => pure ?_
  have low := read.inside
  have middle := first.inside
  rw [read.start]
  refine .operated (by omega) second rfl rfl rfl (List.forall_mem_cons.mpr ⟨.inr (read.heldIn.mono (Nat.le_refl i) (by omega)),
    List.forall_mem_cons.mpr ⟨.inr (first.heldIn.mono (by omega) on),List.forall_mem_singleton.mpr (.inl rfl)⟩⟩)

theorem expr_held : Reads tokens (expr inner) i (Held tokens i) := by
  refine bind (conditional_held hold) fun left k read _ => get ?_
  split
  · rename_i op found
    refine skip 1 (operator_quiet rfl found).1 (bind (hold.expr _) fun right j last _ => pure ?_)
    have low := read.inside
    rw [read.start]
    exact .operated (by omega) last rfl rfl rfl (List.forall_mem_cons.mpr
      ⟨.inr (read.heldIn.mono (Nat.le_refl i) (Nat.le_succ k)),List.forall_mem_singleton.mpr (.inl rfl)⟩)
  · exact pure read

theorem initializer_held : Reads tokens (initializer inner) i (Held tokens i) :=
  sees (fun opening => arrayInit_held hold opening) fun _ => expr_held hold

theorem next_hold : (next inner).Hold tokens where
  expr _ := expr_held hold
  conditional _ := conditional_held hold
  binary least _ := binary_held hold least
  unary _ := unary_held hold
  initializer _ := initializer_held hold

omit hold

theorem readers_hold (depth : Nat) : (readers depth).Hold tokens := by
  induction depth with
  | zero =>
    have nothing (i : Nat) : Reads tokens (do return Expr.missing (.empty (← Parser.nextStart))) i (Held tokens i) :=
      assume fun inside => nextStart (pure (Expr.held_nothing inside))
    exact ⟨nothing,nothing,fun _ => nothing,nothing,nothing⟩
  | succ depth ih => exact next_hold ih

end ExprLevel

namespace Parser

theorem expr_held : Reads tokens Parser.expr i (Expr.Held tokens i) :=
  Reads.bounded fun turns _ => (ExprLevel.readers_hold turns).expr i

theorem initializer_held : Reads tokens Parser.initializer i (Expr.Held tokens i) :=
  Reads.bounded fun turns _ => (ExprLevel.readers_hold turns).initializer i

end Parser

end Transplant.Java
