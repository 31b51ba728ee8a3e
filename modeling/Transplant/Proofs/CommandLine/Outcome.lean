import Transplant.CommandLine.Run
import Transplant.Proofs.Donor.Blocks

/-! What a command that asks for blocks comes to. It is refused only where no method is meant; for
the method that is meant, the exit code tells what speaks against moving it, and the blocks are those
of the method unless it cannot be moved at all. None of the faults of a call that does not fit its
method, or of edits that do not fit their text, is left to be reported. -/
namespace Transplant

theorem Severity.le_rank_max_iff (bound : Nat) (first second : Severity) :
    bound ≤ (first.max second).rank ↔ bound ≤ first.rank ∨ bound ≤ second.rank := by
  unfold Severity.max
  split <;> omega

namespace Status

theorem le_rank_foldl_max (bound : Nat) (severity : Severity) (status : Status) :
    bound ≤ (status.foldl (fun worst problem => worst.max problem.severity) severity).rank ↔
      bound ≤ severity.rank ∨ ∃ problem ∈ status, bound ≤ problem.severity.rank := by
  induction status generalizing severity with
  | nil => simp
  | cons problem rest ih =>
    rw [List.foldl_cons,ih,Severity.le_rank_max_iff,List.exists_mem_cons_iff,or_assoc]

theorem hasAtLeast_iff (status : Status) (severity : Severity) :
    status.hasAtLeast severity = true ↔ ∃ problem ∈ status, severity.rank ≤ problem.severity.rank := by
  cases status with
  | nil => simp [hasAtLeast,severity?]
  | cons problem rest =>
    simp only [hasAtLeast,severity?,decide_eq_true_eq,List.exists_mem_cons_iff]
    exact le_rank_foldl_max _ _ rest

theorem hasError_iff (status : Status) :
    status.hasError = true ↔ ∃ problem ∈ status, problem.severity = .error ∨ problem.severity = .fatal := by
  refine (hasAtLeast_iff status .error).trans ?_
  have known (severity : Severity) :
      Severity.error.rank ≤ severity.rank ↔ severity = .error ∨ severity = .fatal := by
    cases severity <;> simp [Severity.rank]
  simp only [known]

theorem hasFatal_iff (status : Status) :
    status.hasFatal = true ↔ ∃ problem ∈ status, problem.severity = .fatal := by
  refine (hasAtLeast_iff status .fatal).trans ?_
  have known (severity : Severity) : Severity.fatal.rank ≤ severity.rank ↔ severity = .fatal := by
    cases severity <;> simp [Severity.rank]
  simp only [known]

end Status

/-- A method that can be moved has a body. -/
theorem Method.body_isSome_of_activation (method : Method Body)
    (movable : method.activation.hasFatal = false) : method.body.isSome = true := by
  cases given : method.body with
  | some body => rfl
  | none =>
    have fatal : method.activation.hasFatal = true := by
      rw [Status.hasFatal_iff,activation,given]
      exact ⟨_,List.mem_singleton_self _,rfl⟩
    cases movable.symm.trans fatal

/-- A call with as many arguments as the method has parameters gets at most two blocks. -/
theorem Method.ReadFrom.blocks_few {text : Text} {method : Method Body} {read : Java.Block}
    (known : method.ReadFrom text read) (layout : Layout) (site : CallSite) (imports : Imports)
    (body : Body) (given : method.body = some body)
    (count : site.arguments.length = method.params.length) :
    ∃ blocks, ((Donor.ofMethod text method layout).prepare.blocks site imports).1 = .ok blocks ∧
      blocks.length ≤ 2 := by
  obtain ⟨spans,selected,done⟩ := known.blocks_eq layout site imports body given count
  obtain ⟨kept,again,few⟩ := known.selected site imports body given (!method.isVoid) site.mode
  cases selected.symm.trans again
  exact ⟨_,done,by rw [List.length_map]; exact few.few⟩

namespace CommandLine

/-- The method has the name that is asked for and a parameter for each argument. -/
def BlocksRequest.fits {β : Type} (request : BlocksRequest) (method : Method β) : Bool :=
  method.name.text == request.target.method && method.params.length == request.arguments.length

section Selection

variable {β : Type} (tree : ItemTree β) (target : Target) (arity : Nat)

theorem find?_methodsNamed (name : String) :
    (tree.methodsNamed name).find? (·.params.length == arity) =
      tree.methods.find? fun method => method.name.text == name && method.params.length == arity := by
  rw [ItemTree.methodsNamed,List.find?_filter]
  congr
  funext method
  exact Bool.eq_iff_iff.mpr (by simp)

/-- The first method in the order of the declarations that has the name and the number of
parameters is selected. -/
theorem selectMethod_of_find? {method : Method β}
    (found : (tree.methods.find? fun method =>
      method.name.text == target.method && method.params.length == arity) = some method) :
    selectMethod tree target (some arity) = .ok method := by
  rw [← find?_methodsNamed] at found
  unfold selectMethod
  cases named : tree.methodsNamed target.method with
  | nil => simp [named] at found
  | cons first others =>
    rw [named] at found
    simp only [found]

/-- Without such a method the selection fails, by an error of its own. -/
theorem selectMethod_of_find?_none
    (missing : (tree.methods.find? fun method =>
      method.name.text == target.method && method.params.length == arity) = none) :
    ∃ error, selectMethod tree target (some arity) = .error error ∧
      ∀ fault, error ≠ .transplant fault := by
  rw [← find?_methodsNamed] at missing
  unfold selectMethod
  cases named : tree.methodsNamed target.method with
  | nil => exact ⟨_,rfl,by simp⟩
  | cons first others =>
    rw [named] at missing
    simp only [missing]
    split
    · exact ⟨_,rfl,by simp⟩
    · exact ⟨_,rfl,by simp⟩

end Selection

/-- What is reported of the method that is meant: its status, and the engine's blocks with their
imports unless the method cannot be moved. -/
structure BlocksReport.Faithful (report : BlocksReport) (layout : Layout) (request : BlocksRequest)
    (source : Text) (method : Method Body) : Prop where
  name : report.method = method.name.text
  status : report.status = method.activation
  fatal : (∃ problem ∈ method.activation, problem.severity = .fatal) →
    report.blocks = [] ∧ report.imports = []
  moved : (¬ ∃ problem ∈ method.activation, problem.severity = .fatal) →
    (∃ imports, (Donor.ofMethod source method layout).prepare.blocks request.callSite
        (.empty request.package) = (.ok report.blocks,imports) ∧ report.imports = imports.names) ∧
      report.blocks.length ≤ 2

variable (layout : Layout) {request : BlocksRequest} {source : Text}

theorem BlocksReport.ofSource_eq {method : Method Body} {blocks : List Text} {imports : Imports}
    (selected : selectMethod (.ofText source) request.target (some request.arguments.length) =
      .ok method)
    (answered : (if method.activation.hasFatal then (.ok [],Imports.empty request.package)
      else (Donor.ofMethod source method layout).prepare.blocks request.callSite
        (.empty request.package)) = (.ok blocks,imports)) :
    ∃ report, BlocksReport.ofSource layout request source = .ok report ∧
      report.method = method.name.text ∧ report.status = method.activation ∧
      report.blocks = blocks ∧ report.imports = imports.names := by
  unfold ofSource
  rw [selected]
  dsimp only [bind,Except.bind]
  rw [answered]
  exact ⟨_,rfl,rfl,rfl,rfl,rfl⟩

/-- The method that is meant gets its report. -/
theorem BlocksReport.ofSource_of_find? {method : Method Body}
    (found : (ItemTree.ofText source).methods.find? request.fits = some method) :
    ∃ report, BlocksReport.ofSource layout request source = .ok report ∧
      report.Faithful layout request source method := by
  have selected : selectMethod (.ofText source) request.target (some request.arguments.length) =
      .ok method := selectMethod_of_find? _ _ _ found
  have fits := List.find?_some found
  have member := List.mem_of_find?_eq_some found
  simp only [BlocksRequest.fits,Bool.and_eq_true,beq_iff_eq] at fits
  cases fatal : method.activation.hasFatal with
  | true =>
    obtain ⟨report,made,name,status,blocks,imports⟩ := ofSource_eq layout selected
      (by rw [fatal]; rfl)
    refine ⟨report,made,name,status,fun _ => ⟨blocks,imports⟩,fun movable => ?_⟩
    exact absurd ((Status.hasFatal_iff _).mp fatal) movable
  | false =>
    obtain ⟨body,given⟩ := Option.isSome_iff_exists.mp (method.body_isSome_of_activation fatal)
    obtain ⟨read,known⟩ := ItemTree.method_readFrom source method body member given
    obtain ⟨blocks,done,few⟩ := known.blocks_few layout request.callSite (.empty request.package)
      body given (by simp [BlocksRequest.callSite,fits.2])
    obtain ⟨report,made,name,status,rfl,imports⟩ := ofSource_eq layout selected
      (by rw [fatal,if_neg Bool.false_ne_true]; exact Prod.ext done rfl)
    refine ⟨report,made,name,status,fun stuck => ?_,fun _ => ⟨⟨_,Prod.ext done rfl,imports⟩,few⟩⟩
    rw [← Status.hasFatal_iff,fatal] at stuck
    cases stuck

/-- Without a method that is meant the fault lies in the selection. -/
theorem BlocksReport.ofSource_of_find?_none
    (missing : (ItemTree.ofText source).methods.find? request.fits = none) :
    ∃ error, BlocksReport.ofSource layout request source = .error error ∧
      selectMethod (.ofText source) request.target (some request.arguments.length) = .error error ∧
      ∀ fault, error ≠ .transplant fault := by
  obtain ⟨error,failed,own⟩ := selectMethod_of_find?_none _ _ _ missing
  refine ⟨error,?_,failed,own⟩
  unfold ofSource
  rw [failed]
  rfl

/-- What a request for blocks comes to. The engine never fails. The exit code is two exactly where
no method is meant; otherwise the first method that is meant is reported, the classes being searched
in the order of their declarations, with exit code one exactly where its status has an entry of
severity error or fatal, and else zero. -/
structure BlocksRequest.Outcome (request : BlocksRequest) (layout : Layout) (source : Text)
    (output : Output) : Prop where
  sound : ∀ fault, BlocksReport.ofSource layout request source ≠ .error (.transplant fault)
  fails : output.exitCode = 2 ↔
    ∀ method ∈ (ItemTree.ofText source).methods, request.fits method = false
  refused : output.exitCode = 2 → ∃ error, output = error.output ∧
    selectMethod (.ofText source) request.target (some request.arguments.length) = .error error
  reports : ∀ method, (ItemTree.ofText source).methods.find? request.fits = some method →
    (output.exitCode = 1 ↔
      ∃ problem ∈ method.activation, problem.severity = .error ∨ problem.severity = .fatal) ∧
    (output.exitCode = 0 ↔
      ¬ ∃ problem ∈ method.activation, problem.severity = .error ∨ problem.severity = .fatal) ∧
    ∃ report : BlocksReport, output = report.output request source ∧
      report.Faithful layout request source method

theorem BlocksReport.output_exitCode (report : BlocksReport) :
    (report.output request source).exitCode = exitCodeOf report.status := by
  unfold output
  split <;> rfl

theorem BlocksRequest.output_outcome (config : Config) : ∃ output,
    ((Request.blocks request).output config source = .ok output ∨
      ∃ error, (Request.blocks request).output config source = .error error ∧ output = error.output) ∧
    request.Outcome config.formatting source output := by
  cases found : (ItemTree.ofText source).methods.find? request.fits with
  | none =>
    obtain ⟨error,failed,unselected,own⟩ :=
      BlocksReport.ofSource_of_find?_none config.formatting found
    refine ⟨error.output,.inr ⟨error,by simp only [Request.output,failed,Except.map],rfl⟩,?_⟩
    refine ⟨fun fault shown => own fault (Except.error.inj (failed.symm.trans shown)),?_,?_,?_⟩
    · exact iff_of_true rfl (by simpa using List.find?_eq_none.mp found)
    · exact fun _ => ⟨error,rfl,unselected⟩
    · exact fun method other => by cases found.symm.trans other
  | some method =>
    obtain ⟨report,made,faithful⟩ :=
      BlocksReport.ofSource_of_find? config.formatting found
    refine ⟨report.output request source,.inl (by simp only [Request.output,made,Except.map]),?_⟩
    have exit : (report.output request source).exitCode = exitCodeOf method.activation := by
      rw [report.output_exitCode,faithful.status]
    have succeeds : (report.output request source).exitCode ≠ 2 := by
      rw [exit,exitCodeOf]
      split <;> decide
    refine ⟨fun fault shown => ?_,?_,fun fails => absurd fails succeeds,?_⟩
    · cases made.symm.trans shown
    · refine iff_of_false succeeds fun none => ?_
      have fits := none method (List.mem_of_find?_eq_some found)
      rw [List.find?_some found] at fits
      cases fits
    · intro other also
      cases found.symm.trans also
      rw [← Status.hasError_iff,exit,exitCodeOf]
      refine ⟨?_,?_,report,rfl,faithful⟩
      · split <;> simp_all
      · split <;> simp_all

/-- A command line that asks for blocks of a readable file, with a configuration that can be loaded,
has an outcome, whatever else loading the one and reading the other may do. -/
theorem run_outcome {m : Type → Type} [Monad m] [LawfulMonad m] (files : Files m)
    (words : List String) (path : Option String) (request : BlocksRequest) (config : Config)
    (source : Text) (loading reading : m Unit)
    (asked : Command.ofWords words = .ok ⟨path,.blocks request⟩)
    (loaded : configOf files ⟨path,.blocks request⟩ = do loading; return .ok config)
    (readable : files.read request.target.file = do reading; return .ok source) :
    ∃ output, run files words = (do loading; reading; return output) ∧
      request.Outcome config.formatting source output := by
  obtain ⟨output,made,outcome⟩ := request.output_outcome config
  refine ⟨output,?_,outcome⟩
  rcases made with made | ⟨error,made,rfl⟩
  · simp only [run,asked,Command.run,loaded,Request.target,readable,bind_assoc,pure_bind,made]
  · simp only [run,asked,Command.run,loaded,Request.target,readable,bind_assoc,pure_bind,made]

/-- Without a configuration, a file with one method that takes as many parameters as there are
arguments. -/
theorem run_outcome_returning :
    let files : Files Id := ⟨fun _ => false,fun _ => .ok "class A { int m(int p) { return p; } }".toList⟩
    ∃ output, run files ["blocks","A.java","--method","m","--arg","1"] = (do pure (); pure (); return output) ∧
      BlocksRequest.Outcome ⟨⟨"A.java","m",false⟩,["1"],none,false,[],.statement,none⟩ .standard
        "class A { int m(int p) { return p; } }".toList output := by
  intro files
  have asked : Command.ofWords ["blocks","A.java","--method","m","--arg","1"] = .ok ⟨none,
      .blocks ⟨⟨"A.java","m",false⟩,["1"],none,false,[],.statement,none⟩⟩ := by cbv
  exact run_outcome files _ _ _ .standard _ (pure ()) (pure ()) asked rfl rfl

end CommandLine
end Transplant
