import Mathlib.Data.List.Induction
import Mathlib.Data.List.Nodup
import Mathlib.Data.List.TakeWhile
import Transplant.Import

/-! Names given out for imported types. A recorded import keeps its simple name to itself; names of
types that need no import are not remembered, and only such a name can come to stand for a second
type. What is recorded are the first requests of each simple name, in their order. -/
namespace Transplant

namespace Imports

theorem splitName?_eq_some {name package simple : String} (parted : splitName? name = some (package,simple)) :
    name.toList = package.toList ++ '.' :: simple.toList ∧ '.' ∉ simple.toList := by
  simp only [splitName?] at parted
  have whole := List.takeWhile_append_dropWhile (p := (· != '.')) (l := name.toList.reverse)
  have stops := List.head?_dropWhile_not (· != '.') name.toList.reverse
  cases tail : name.toList.reverse.dropWhile (· != '.') with
  | nil => simp [tail] at parted
  | cons c rest =>
    simp only [tail,Option.some.injEq,Prod.mk.injEq] at parted whole stops
    obtain ⟨rfl,rfl⟩ := parted
    obtain rfl : c = '.' := by simpa using stops
    refine ⟨?_,?_⟩
    · simpa using congrArg List.reverse whole.symm
    · intro dotted
      rw [String.toList_ofList,List.mem_reverse] at dotted
      simpa using List.mem_takeWhile_imp dotted

theorem splitName?_isSome_iff (name : String) : (splitName? name).isSome = true ↔ '.' ∈ name.toList := by
  constructor
  · intro some
    obtain ⟨⟨package,simple⟩,parted⟩ := Option.isSome_iff_exists.mp some
    rw [(splitName?_eq_some parted).1]
    simp
  · intro dotted
    cases tail : name.toList.reverse.dropWhile (· != '.') with
    | nil =>
      rw [List.dropWhile_eq_nil_iff] at tail
      simpa using tail '.' (List.mem_reverse.mpr dotted)
    | cons c rest => simp [splitName?,tail]

variable {imports : Imports} {name package simple : String}

theorem lastSegment_eq (parted : splitName? name = some (package,simple)) : lastSegment name = simple := by
  simp [lastSegment,parted]

theorem add_simple (dotless : splitName? name = none) : imports.add name = (name,imports) := by
  simp only [add,dotless]

/-- A dotted name is recorded already, or loses its simple name to another record, or needs no
record, or is recorded now. -/
theorem add_dotted (imports : Imports) (parted : splitName? name = some (package,simple)) :
    (name ∈ imports.names ∧ imports.add name = (simple,imports)) ∨
    (name ∉ imports.names ∧ simple ∈ imports.names.map lastSegment ∧ imports.add name = (name,imports)) ∨
    (simple ∉ imports.names.map lastSegment ∧ imports.isVisible package = true ∧
      imports.add name = (simple,imports)) ∨
    (simple ∉ imports.names.map lastSegment ∧ imports.isVisible package = false ∧
      imports.add name = (simple,{ imports with names := imports.names ++ [name] })) := by
  have taken : imports.names.any (lastSegment · == simple) = true ↔
      simple ∈ imports.names.map lastSegment := by simp
  by_cases recorded : name ∈ imports.names
  · exact .inl ⟨recorded,by simp [add,parted,recorded]⟩
  by_cases clash : simple ∈ imports.names.map lastSegment
  · refine .inr (.inl ⟨recorded,clash,?_⟩)
    simp only [add,parted,List.contains_iff_mem,recorded,taken.mpr clash,if_true,if_false]
  have free := Bool.eq_false_iff.mpr (mt taken.mp clash)
  cases visible : imports.isVisible package with
  | true =>
    refine .inr (.inr (.inl ⟨clash,rfl,?_⟩))
    simp only [add,parted,List.contains_iff_mem,recorded,free,visible,if_true,if_false,Bool.false_eq_true]
  | false =>
    refine .inr (.inr (.inr ⟨clash,rfl,?_⟩))
    simp only [add,parted,List.contains_iff_mem,recorded,free,visible,if_false,Bool.false_eq_true]

/-- A type that was called by a name once is called by it from then on. -/
theorem add_again (imports : Imports) (name : String) :
    (imports.add name).2.add name = imports.add name := by
  cases parted : splitName? name with
  | none => rw [add_simple parted,add_simple parted]
  | some parts =>
    rcases add_dotted imports parted with ⟨_,added⟩ | ⟨_,_,added⟩ | ⟨_,_,added⟩ | ⟨_,_,added⟩
    · rw [added,added]
    · rw [added,added]
    · rw [added,added]
    · rw [added]
      simp [add,parted]

theorem add_extends (imports : Imports) (name : String) :
    ∃ more, (imports.add name).2 = ⟨imports.package,imports.names ++ more⟩ := by
  cases parted : splitName? name with
  | none => exact ⟨[],by rw [add_simple parted,List.append_nil]⟩
  | some parts =>
    rcases add_dotted imports parted with ⟨_,added⟩ | ⟨_,_,added⟩ | ⟨_,_,added⟩ | ⟨_,_,added⟩
    · exact ⟨[],by rw [added,List.append_nil]⟩
    · exact ⟨[],by rw [added,List.append_nil]⟩
    · exact ⟨[],by rw [added,List.append_nil]⟩
    · exact ⟨[name],by rw [added]⟩

/-- No two recorded imports have one simple name. -/
def Distinct (imports : Imports) : Prop := (imports.names.map lastSegment).Nodup

theorem Distinct.add (distinct : Distinct imports) (name : String) : Distinct (imports.add name).2 := by
  cases parted : splitName? name with
  | none => rwa [add_simple parted]
  | some parts =>
    rcases add_dotted imports parted with ⟨_,added⟩ | ⟨_,_,added⟩ | ⟨_,_,added⟩ | ⟨free,_,added⟩
    · rwa [added]
    · rwa [added]
    · rwa [added]
    · rw [added,Distinct,List.map_append,List.map_singleton,lastSegment_eq parted,List.nodup_append]
      refine ⟨distinct,by simp,?_⟩
      intro taken member new same
      rw [List.mem_singleton.mp same]
      rintro rfl
      exact free member

/-- The type needs no import to be called by its simple name. -/
def seesName (imports : Imports) (name : String) : Bool :=
  (splitName? name).any fun parts => imports.isVisible parts.1

/-- A dotted name is answered with its simple name or in full. The simple name of a type that is
neither recorded nor visible is never given out. -/
theorem add_answer (imports : Imports) (parted : splitName? name = some (package,simple)) :
    (imports.add name).1 = name ∨ ((imports.add name).1 = simple ∧
      (name ∈ (imports.add name).2.names ∨ imports.seesName name = true)) := by
  rcases add_dotted imports parted with
    ⟨recorded,added⟩ | ⟨_,_,added⟩ | ⟨_,visible,added⟩ | ⟨_,_,added⟩
  · rw [added]
    exact .inr ⟨rfl,.inl recorded⟩
  · rw [added]
    exact .inl rfl
  · rw [added]
    exact .inr ⟨rfl,.inr (by rwa [seesName,parted,Option.any_some])⟩
  · rw [added]
    exact .inr ⟨rfl,.inl (by simp)⟩

/-- While an import is recorded, no other dotted name is answered with its simple name. -/
theorem Distinct.eq_of_add {other : String} (distinct : Distinct imports) (recorded : name ∈ imports.names)
    (parted : splitName? name = some (package,simple)) (dotted : '.' ∈ other.toList)
    (same : (imports.add other).1 = simple) : other = name := by
  obtain ⟨⟨package',simple'⟩,parted'⟩ :=
    Option.isSome_iff_exists.mp ((splitName?_isSome_iff other).mpr dotted)
  have own := lastSegment_eq parted
  have taken : simple ∈ imports.names.map lastSegment := own ▸ List.mem_map_of_mem recorded
  rcases add_dotted imports parted' with
    ⟨also,added⟩ | ⟨_,_,added⟩ | ⟨free,_,added⟩ | ⟨free,_,added⟩
  · rw [added] at same
    apply List.inj_on_of_nodup_map distinct also recorded
    exact (lastSegment_eq parted').trans (same.trans own.symm)
  · rw [added] at same
    exact absurd (same ▸ dotted) (splitName?_eq_some parted).2
  · rw [added] at same
    obtain rfl : simple' = simple := same
    exact absurd taken free
  · rw [added] at same
    obtain rfl : simple' = simple := same
    exact absurd taken free

theorem Distinct.apart_of_add {state : Imports} {other : String} (keeps : Distinct state)
    (more : (imports.add name).2.names ⊆ state.names) (dotted : '.' ∈ name.toList)
    (otherDotted : '.' ∈ other.toList) (same : (imports.add name).1 = (state.add other).1) :
    name = other ∨ imports.seesName name = true := by
  obtain ⟨⟨package,simple⟩,parted⟩ :=
    Option.isSome_iff_exists.mp ((splitName?_isSome_iff name).mpr dotted)
  obtain ⟨⟨package',simple'⟩,parted'⟩ :=
    Option.isSome_iff_exists.mp ((splitName?_isSome_iff other).mpr otherDotted)
  rcases add_answer imports parted with full | ⟨short,recorded | visible⟩
  · rcases add_answer state parted' with otherFull | ⟨otherShort,_⟩
    · exact .inl (by rw [← full,same,otherFull])
    · rw [full,otherShort] at same
      exact absurd (same ▸ dotted) (splitName?_eq_some parted').2
  · exact .inl (keeps.eq_of_add (more recorded) parted otherDotted (same ▸ short)).symm
  · exact .inr visible

/-- The names asked for, one after the other, each with its answer. -/
def answers (imports : Imports) : List String → List (String × String)
  | [] => []
  | name :: rest => (name,(imports.add name).1) :: answers (imports.add name).2 rest

theorem mem_answers {names : List String} {answer : String} (distinct : Distinct imports)
    (member : (name,answer) ∈ answers imports names) :
    ∃ state : Imports, Distinct state ∧ imports.names ⊆ state.names ∧ (state.add name).1 = answer := by
  induction names generalizing imports with
  | nil => cases member
  | cons first rest ih =>
    rcases List.mem_cons.mp member with here | later
    · obtain ⟨rfl,rfl⟩ := Prod.mk.inj here
      exact ⟨imports,distinct,List.Subset.refl _,rfl⟩
    · obtain ⟨state,keeps,more,found⟩ := ih (distinct.add first) later
      obtain ⟨new,extended⟩ := add_extends imports first
      rw [extended] at more
      exact ⟨state,keeps,List.Subset.trans (List.subset_append_left _ _) more,found⟩

theorem answers_apart_from {names : List String} (distinct : Distinct imports) :
    (answers imports names).Pairwise fun first second => first.2 = second.2 →
      first.1 = second.1 ∨ imports.seesName first.1 = true ∨
        ('.' ∈ first.1.toList ↔ '.' ∉ second.1.toList) := by
  induction names generalizing imports with
  | nil => exact List.Pairwise.nil
  | cons name rest ih =>
    refine List.pairwise_cons.mpr ⟨?_,?_⟩
    · rintro ⟨other,answer⟩ later same
      obtain ⟨state,keeps,more,rfl⟩ := mem_answers (distinct.add name) later
      by_cases dotted : '.' ∈ name.toList <;> by_cases otherDotted : '.' ∈ other.toList
      · exact (keeps.apart_of_add more dotted otherDotted same).imp_right .inl
      · exact .inr (.inr (by simp [dotted,otherDotted]))
      · exact .inr (.inr (by simp [dotted,otherDotted]))
      · rw [← splitName?_isSome_iff,Option.not_isSome_iff_eq_none] at dotted otherDotted
        rw [add_simple dotted,add_simple otherDotted] at same
        exact .inl same
    · obtain ⟨new,extended⟩ := add_extends imports name
      have tail := ih (distinct.add name)
      rw [extended] at tail ⊢
      exact tail

/-- Two requests are answered by one name only when they are for one type, or the first is for a
type that needs no import, or exactly one of them is for a type of no package. -/
theorem answers_apart (package : Option String) (names : List String) :
    (answers (empty package) names).Pairwise fun first second => first.2 = second.2 →
      first.1 = second.1 ∨ (empty package).seesName first.1 = true ∨
        ('.' ∈ first.1.toList ↔ '.' ∉ second.1.toList) :=
  answers_apart_from List.nodup_nil

/-- In each of these ways one name can come to stand for two types. -/
theorem answers_shared :
    answers (empty none) ["java.lang.String","x.String"] =
      [("java.lang.String","String"),("x.String","String")] ∧
    answers (empty (some "app")) ["app.Local","x.Local"] = [("app.Local","Local"),("x.Local","Local")] ∧
    answers (empty none) ["Local","x.Local"] = [("Local","Local"),("x.Local","Local")] ∧
    answers (empty none) ["x.Local","Local"] = [("x.Local","Local"),("Local","Local")] := by
  decide

/-! Runs of requests, one after the other. -/

def addAll (imports : Imports) (names : List String) : Imports :=
  names.foldl (fun imports name => (imports.add name).2) imports

theorem addAll_append_singleton (imports : Imports) (names : List String) (name : String) :
    imports.addAll (names ++ [name]) = ((imports.addAll names).add name).2 := by
  rw [addAll,List.foldl_append]
  rfl

theorem addAll_extends (imports : Imports) (names : List String) :
    ∃ more, imports.addAll names = ⟨imports.package,imports.names ++ more⟩ := by
  induction names using List.reverseRecOn with
  | nil => exact ⟨[],by rw [List.append_nil]; rfl⟩
  | append_singleton names name ih =>
    obtain ⟨more,before⟩ := ih
    obtain ⟨new,now⟩ := add_extends ⟨imports.package,imports.names ++ more⟩ name
    exact ⟨more ++ new,by rw [addAll_append_singleton,before,now,List.append_assoc]⟩

theorem Distinct.addAll (distinct : Distinct imports) (names : List String) : Distinct (imports.addAll names) := by
  induction names using List.reverseRecOn with
  | nil => exact distinct
  | append_singleton names name ih =>
    rw [addAll_append_singleton]
    exact ih.add name

/-- What is recorded once these names were asked for: names of other packages, in the order of their
first requests, and for each simple name that needs an import one of them. -/
structure Records (package : Option String) (names recorded : List String) : Prop where
  foreign : ∀ name ∈ recorded, ∃ own simple, splitName? name = some (own,simple) ∧
    own ≠ "java.lang" ∧ package ≠ some own
  ordered : recorded.Sublist names.eraseDups
  covers : ∀ name ∈ names, '.' ∈ name.toList → (empty package).seesName name = false →
    lastSegment name ∈ recorded.map lastSegment

theorem eraseDups_append_singleton (names : List String) (name : String) :
    (names ++ [name]).eraseDups = if name ∈ names then names.eraseDups else names.eraseDups ++ [name] := by
  by_cases known : name ∈ names
  · simp [List.eraseDups_append,List.removeAll,known]
  · simp [List.eraseDups_append,List.removeAll,List.eraseDups_cons,known]

namespace Records

variable {names recorded : List String} {own : Option String}

/-- Nothing is recorded for a type that needs no import or whose simple name is taken. -/
theorem keep (records : Records own names recorded)
    (known : '.' ∈ name.toList → (empty own).seesName name = false → lastSegment name ∈ recorded.map lastSegment) :
    Records own (names ++ [name]) recorded where
  foreign := records.foreign
  ordered := by
    rw [eraseDups_append_singleton]
    split
    · exact records.ordered
    · exact records.ordered.trans (List.sublist_append_left _ _)
  covers := by
    intro other member
    rcases List.mem_append.mp member with before | now
    · exact records.covers other before
    · obtain rfl := List.mem_singleton.mp now
      exact known

theorem record (records : Records own names recorded) (parted : splitName? name = some (package,simple))
    (hidden : (empty own).isVisible package = false) (free : simple ∉ recorded.map lastSegment) :
    Records own (names ++ [name]) (recorded ++ [name]) where
  foreign := by
    intro other member
    rcases List.mem_append.mp member with before | now
    · exact records.foreign other before
    · obtain rfl := List.mem_singleton.mp now
      exact ⟨package,simple,parted,by simpa [isVisible,empty] using hidden⟩
  ordered := by
    -- Its simple name is free, so it was not asked for before.
    have fresh : name ∉ names := by
      intro before
      have dotted := (splitName?_isSome_iff name).mp (by rw [parted]; rfl)
      have taken := records.covers name before dotted (by rw [seesName,parted,Option.any_some,hidden])
      exact free (lastSegment_eq parted ▸ taken)
    rw [eraseDups_append_singleton,if_neg fresh]
    exact records.ordered.append_right [name]
  covers := by
    intro other member dotted unseen
    rw [List.map_append,List.mem_append]
    rcases List.mem_append.mp member with before | now
    · exact .inl (records.covers other before dotted unseen)
    · obtain rfl := List.mem_singleton.mp now
      exact .inr (List.mem_singleton.mpr rfl)

theorem add (records : Records own names imports.names) (same : imports.package = own) (name : String) :
    Records own (names ++ [name]) (imports.add name).2.names := by
  obtain rfl := same
  cases parted : splitName? name with
  | none =>
    rw [add_simple parted]
    apply records.keep
    intro dotted
    rw [← splitName?_isSome_iff,parted] at dotted
    cases dotted
  | some parts =>
    obtain ⟨package,simple⟩ := parts
    have own := lastSegment_eq parted
    rcases add_dotted imports parted with
      ⟨recorded,added⟩ | ⟨_,taken,added⟩ | ⟨_,visible,added⟩ | ⟨free,hidden,added⟩
    · rw [added]
      exact records.keep fun _ _ => List.mem_map_of_mem recorded
    · rw [added]
      exact records.keep fun _ _ => own ▸ taken
    · rw [added]
      apply records.keep
      intro _ unseen
      rw [seesName,parted,Option.any_some] at unseen
      exact absurd (visible.symm.trans unseen) nofun
    · rw [added]
      exact records.record parted hidden free

end Records

theorem records_addAll (own : Option String) (names : List String) :
    Records own names ((empty own).addAll names).names := by
  induction names using List.reverseRecOn with
  | nil => exact ⟨nofun,List.Sublist.slnil,nofun⟩
  | append_singleton names name ih =>
    obtain ⟨more,reached⟩ := addAll_extends (empty own) names
    rw [addAll_append_singleton]
    exact ih.add (by rw [reached]; rfl) name

theorem add_eq_or (imports : Imports) (name : String) :
    (imports.add name).1 = name ∨ (imports.add name).1 = lastSegment name := by
  cases parted : splitName? name with
  | none => exact .inl (by rw [add_simple parted])
  | some parts =>
    apply (add_answer imports parted).imp_right
    intro short
    rw [short.1,lastSegment_eq parted]

/-- A dotted name is answered in full when another recorded import has taken its simple name. -/
theorem Distinct.add_eq_self_iff (distinct : Distinct imports) (dotted : '.' ∈ name.toList) :
    (imports.add name).1 = name ↔ ∃ other ∈ imports.names, lastSegment other = lastSegment name ∧ other ≠ name := by
  obtain ⟨⟨package,simple⟩,parted⟩ := Option.isSome_iff_exists.mp ((splitName?_isSome_iff name).mpr dotted)
  have shorter : simple ≠ name := fun same => (splitName?_eq_some parted).2 (same ▸ dotted)
  have untaken (free : simple ∉ imports.names.map lastSegment) :
      ¬∃ other ∈ imports.names, lastSegment other = lastSegment name ∧ other ≠ name := by
    rintro ⟨other,recorded,same,_⟩
    exact free (lastSegment_eq parted ▸ same ▸ List.mem_map_of_mem recorded)
  rcases add_dotted imports parted with
    ⟨recorded,added⟩ | ⟨unrecorded,taken,added⟩ | ⟨free,_,added⟩ | ⟨free,_,added⟩
  · rw [added]
    refine iff_of_false shorter ?_
    rintro ⟨other,member,same,different⟩
    exact different (List.inj_on_of_nodup_map distinct member recorded same)
  · obtain ⟨other,recorded,same⟩ := List.mem_map.mp taken
    rw [added]
    refine iff_of_true rfl ⟨other,recorded,same.trans (lastSegment_eq parted).symm,?_⟩
    rintro rfl
    exact unrecorded recorded
  · rw [added]
    exact iff_of_false shorter (untaken free)
  · rw [added]
    exact iff_of_false shorter (untaken free)

/-- Whatever was asked for, the recorded imports are different names with different simple names, of
other packages and in the order of their first requests, and they stay recorded. The next request is
answered with its name or its simple name, and a dotted one in full exactly when another import has
its simple name. -/
theorem requests_recorded (package : Option String) (names : List String) :
    let imports := (empty package).addAll names
    imports.names.Nodup ∧ Distinct imports ∧ Records package names imports.names ∧
    (∀ later, imports.names <+: (imports.addAll later).names) ∧
    ∀ name, ((imports.add name).1 = name ∨ (imports.add name).1 = lastSegment name) ∧
      ('.' ∈ name.toList → ((imports.add name).1 = name ↔
        ∃ other ∈ imports.names, lastSegment other = lastSegment name ∧ other ≠ name)) := by
  intro imports
  have start : Distinct (empty package) := List.nodup_nil
  have distinct : Distinct imports := start.addAll names
  refine ⟨List.Nodup.of_map _ distinct,distinct,records_addAll package names,?_,?_⟩
  · intro later
    obtain ⟨more,extended⟩ := addAll_extends imports later
    rw [extended]
    exact List.prefix_append _ _
  · intro name
    exact ⟨add_eq_or imports name,distinct.add_eq_self_iff⟩

/-- A type of the own package is called by its full name once another type has taken its simple name. -/
theorem requests_recorded_shadowing :
    let imports := (empty (some "app")).addAll ["java.lang.String","x.Local","x.Local"]
    imports.names = ["x.Local"] ∧ (imports.add "app.Local").1 = "app.Local" := by
  obtain ⟨_,_,_,_,answers⟩ := requests_recorded (some "app") ["java.lang.String","x.Local","x.Local"]
  have recorded : ((empty (some "app")).addAll ["java.lang.String","x.Local","x.Local"]).names = ["x.Local"] := by
    decide
  refine ⟨recorded,((answers "app.Local").2 (by decide)).mpr ⟨"x.Local",?_,by decide,by decide⟩⟩
  rw [recorded]
  exact List.mem_singleton_self _

end Imports
end Transplant
