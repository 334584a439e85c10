/-
The passes that change code method by method, in the order of the usual plan.  Each of them keeps the labels of all
methods closed.  Only the pass that puts blocks into execution order needs more than that, since it drops blocks that
cannot be reached: the pass in front of it leaves none.
-/
import Unscramble.Plan
import Unscramble.Proofs.GuardLayout
import Unscramble.Proofs.LabelEncoding
import Unscramble.Proofs.Makers
import Unscramble.Proofs.Pruning
import Unscramble.Proofs.Traversals

namespace Unscramble

namespace ClassPool

variable {pool : ClassPool}

/-- The labels of all methods are closed. -/
def LabelsClosed (pool : ClassPool) : Prop :=
  pool.All MethodDecl.LabelsClosed

end ClassPool

namespace Pass

/-- The pass brings all methods from one property to another. -/
def Brings (pass : Pass) (P Q : MethodDecl → Prop) : Prop :=
  ∀ (verbose : Bool) (pool : ClassPool), pool.All P → (pass.run pool verbose).Gives fun r => r.1.All Q

theorem handlers_brings : handlers.Brings MethodDecl.LabelsClosed MethodDecl.LabelsClosed := by
  intro verbose pool hpool
  refine .within (ClassPool.gives_traverseMethods hpool (fun c m hm => ?_) fun r => ?_)
  · exact .ofExcept fun r hr => Handlers.labelsClosed_prune hm hr
  · exact (Logged.Gives.any _).bind fun _ _ => .pure rfl

theorem deadCode_brings :
    deadCode.Brings MethodDecl.LabelsClosed fun m => m.LabelsClosed ∧ m.Trimmed := by
  intro verbose pool hpool
  refine ClassPool.gives_traverseMethods hpool (fun c m hm => ?_) fun r => ?_
  · split
    · next hcode => exact .pure ⟨hm, MethodDecl.trimmed_of_hasCode_eq_false (by simpa using hcode)⟩
    · split
      · next hresult =>
          exact .pure ⟨MethodDecl.labelsClosed_removeDeadCode hm hresult, MethodDecl.trimmed_removeDeadCode hresult⟩
      · next hresult =>
          exact (Logged.Gives.any _).bind fun _ _ =>
            .pure ⟨hm, MethodDecl.trimmed_of_removeDeadCode_eq_error hresult⟩
  · exact (Logged.Gives.any _).bind fun _ _ => .pure rfl

theorem blockOrder_brings :
    blockOrder.Brings (fun m => m.LabelsClosed ∧ m.Trimmed) MethodDecl.LabelsClosed := by
  intro verbose pool hpool
  refine ClassPool.gives_traverseMethods hpool (fun c m hm => ?_) fun r => ?_
  · split
    · exact .pure hm.1
    · next hcode =>
        have ⟨htries, hbody⟩ : m.tries = [] ∧ m.code ≠ [] := by simpa [MethodDecl.hasCode] using hcode
        split
        · next hbuild => exact .pure (MethodDecl.labelsClosed_reorder hm.1 hm.2 hbody htries hbuild)
        · exact (Logged.Gives.any _).bind fun _ _ => .pure hm.1
  · exact (Logged.Gives.any _).bind fun _ _ => .pure rfl

theorem guards_brings : guards.Brings MethodDecl.LabelsClosed MethodDecl.LabelsClosed := by
  intro verbose pool hpool
  refine .within (ClassPool.gives_traverseMethods hpool (fun c m hm => ?_) fun r => ?_)
  · refine (Logged.Gives.any _).bind fun slot? _ => ?_
    split
    · exact .pure hm
    · next slot =>
        obtain ⟨hlabels, htargets⟩ := Guard.labelsIn_removeAll slot m.code
        exact (Logged.Gives.any _).bind fun _ _ => .pure (hm.withCode (.of_eq hlabels) htargets)
  · exact (Logged.Gives.any _).bind fun _ _ => .pure rfl

theorem gotos_brings : gotos.Brings MethodDecl.LabelsClosed MethodDecl.LabelsClosed := by
  intro verbose pool hpool
  refine (Logged.Gives.any _).bind fun _ _ => .pure (ClassPool.all_mapMethods (fun c m hm => ?_) hpool)
  have hlabels := RedundantGoto.labelsIn_remove m.code
  exact hm.withCode (.of_eq hlabels) fun instr hinstr l hl =>
    ⟨instr, (RedundantGoto.remove_sublist m.code).subset hinstr, hl⟩

theorem multipliers_brings : multipliers.Brings MethodDecl.LabelsClosed MethodDecl.LabelsClosed := by
  intro verbose pool hpool
  refine .within ((Logged.Gives.any _).bind fun decoders _ => (Logged.Gives.any _).bind fun _ _ => ?_)
  refine ClassPool.gives_traverseMethods hpool (fun c m hm => ?_) fun r => ?_
  · unfold Multiplier.removeFrom
    split
    · exact .pure hm
    · refine Logged.Gives.bind (.ofExcept fun r hr => Multiplier.labelsClosed_cancel hm hr) fun r hplain => ?_
      refine Logged.Gives.bind (.within fun log r' log' hfold => ?_) fun r' hshort => .pure hshort
      exact Multiplier.Fold.labelsClosed_fold hplain hfold
  · exact (Logged.Gives.any _).bind fun _ _ => (Logged.Gives.any _).bind fun _ _ => .pure rfl

end Pass

namespace Plan

variable {P : MethodDecl → Prop} {steps plan : List Step} {pool : ClassPool} {verbose : Bool}

/-- The passes that change code method by method, as the usual plan has them. -/
def rewriting : List Step :=
  usual.filter fun step =>
    step.pass ∈ [Pass.handlers, .deadCode, .blockOrder, .guards, .gotos, .multipliers]

/-- Passes one after the other, each of which finds what it needs of every method, closed labels at least. -/
inductive Keeps : (MethodDecl → Prop) → List Step → Prop
  | nil {P : MethodDecl → Prop} (closed : ∀ m, P m → m.LabelsClosed) : Keeps P []
  | cons {P Q : MethodDecl → Prop} {step : Step} {rest : List Step} (closed : ∀ m, P m → m.LabelsClosed)
      (brings : step.pass.Brings P Q) (later : Keeps Q rest) : Keeps P (step :: rest)

theorem keeps_rewriting : Keeps MethodDecl.LabelsClosed rewriting := by
  have hplan : rewriting = [⟨30, .handlers⟩, ⟨40, .deadCode⟩, ⟨50, .blockOrder⟩, ⟨60, .guards⟩, ⟨100, .gotos⟩,
      ⟨110, .multipliers⟩] := by decide
  rw [hplan]
  have hclosed : ∀ m : MethodDecl, m.LabelsClosed → m.LabelsClosed := fun _ => id
  refine .cons hclosed Pass.handlers_brings (.cons hclosed Pass.deadCode_brings ?_)
  refine .cons (fun _ => And.left) Pass.blockOrder_brings (.cons hclosed Pass.guards_brings ?_)
  exact .cons hclosed Pass.gotos_brings (.cons hclosed Pass.multipliers_brings (.nil hclosed))

theorem gives_runStep {Q : MethodDecl → Prop} {step : Step} (h : step.pass.Brings P Q) (hpool : pool.All P) :
    (runStep verbose pool step).Gives fun r => r.1.All Q := by
  refine (Logged.Gives.any _).bind fun _ _ => (Logged.Gives.any _).bind fun _ _ => ?_
  exact (h verbose pool hpool).within.bind fun r hr => (Logged.Gives.any _).bind fun _ _ => .pure hr

/-- However many passes of such a plan have run, all labels are closed. -/
theorem Keeps.gives_runSteps (h : Keeps P plan) (hsteps : steps <+: plan) (hpool : pool.All P) :
    (runSteps verbose steps pool).Gives fun r => r.1.LabelsClosed := by
  induction h generalizing steps pool with
  | nil closed =>
      obtain rfl := List.prefix_nil.1 hsteps
      exact .pure fun c hc m hm => closed m (hpool c hc m hm)
  | @cons P Q step rest closed brings _ ih =>
      cases steps with
      | nil => exact .pure fun c hc m hm => closed m (hpool c hc m hm)
      | cons first later =>
          obtain ⟨rfl, hlater⟩ := List.cons_prefix_cons.1 hsteps
          exact (gives_runStep brings hpool).bind fun r hr => (ih hlater hr).bind fun r' hr' => .pure hr'

/-- After each of the passes that change code the labels of all methods are closed, and no class is refused for a label
without a place. -/
theorem rewriting_closes_labels {lines : List LogLine} {after : ClassPool} {reports : List StepReport}
    (hpool : pool.LabelsClosed) (hsteps : steps <+: rewriting)
    (hrun : (run steps pool verbose).run = (lines, .ok (after, reports))) :
    after.LabelsClosed ∧
      ∀ c ∈ after.classes, ∀ e, ClassFile.encodeClass c = .error e → e.unplaced? = none := by
  have hgives : (run steps pool verbose).Gives fun r => r.1.LabelsClosed :=
    (keeps_rewriting.gives_runSteps hsteps hpool).bind fun r hr => (Logged.Gives.any _).bind fun _ _ => .pure hr
  have hafter := hgives.of_run hrun
  exact ⟨hafter, fun c hc => ClassFile.findsLabels_class (hafter c hc)⟩

section Examples

/-- A method with blocks out of order, one of which cannot be reached. -/
def tangled : MethodDecl where
  name := "tangled"
  descriptor := "()V"
  access := Access.staticBit
  code := [.jump Opcode.goto ⟨1⟩, .label ⟨0⟩, .simple Opcode.vreturn, .label ⟨2⟩, .jump Opcode.goto ⟨2⟩, .label ⟨1⟩,
    .jump Opcode.goto ⟨0⟩]

/-- A method with a handler range that ends at a label that cannot be reached. -/
def guarded : MethodDecl where
  name := "guarded"
  descriptor := "()V"
  access := Access.staticBit
  code := [.label ⟨0⟩, .jump Opcode.goto ⟨1⟩, .label ⟨2⟩, .jump Opcode.goto ⟨2⟩, .label ⟨1⟩, .simple Opcode.vreturn,
    .label ⟨3⟩, .label ⟨4⟩, .simple Opcode.athrow]
  tries := [⟨⟨0⟩, ⟨3⟩, ⟨4⟩, none⟩]

/-- A program with one method. -/
def single (m : MethodDecl) : ClassPool where
  classes := [{ name := "Single", methods := [m] }]
  ordered := List.pairwise_singleton _ _

theorem labelsClosed_single {m : MethodDecl} (h : m.LabelsClosed) : (single m).LabelsClosed := by
  intro c hc m' hm'
  obtain rfl := List.mem_singleton.1 hc
  obtain rfl := List.mem_singleton.1 hm'
  exact h

theorem exists_run_eq (h : (run steps pool).run.2.toOption.isSome = true) :
    ∃ lines after reports, (run steps pool).run = (lines, .ok (after, reports)) := by
  cases hrun : (run steps pool).run with
  | mk lines result =>
      cases result with
      | error reason => simp [hrun, Except.toOption] at h
      | ok r => exact ⟨lines, r.1, r.2, rfl⟩

/-- The passes up to the last but one put the blocks of the first method into order; all of them run over the second
one, whose blocks stay. -/
theorem tangled_guarded_close_labels :
    (tangled.LabelsClosed ∧ ∃ lines after reports,
      (run (rewriting.take 5) (single tangled)).run = (lines, .ok (after, reports)) ∧ after.LabelsClosed ∧
        ∀ c ∈ after.classes, ∀ e, ClassFile.encodeClass c = .error e → e.unplaced? = none) ∧
      guarded.LabelsClosed ∧ ∃ lines after reports,
        (run rewriting (single guarded)).run = (lines, .ok (after, reports)) ∧ after.LabelsClosed ∧
          ∀ c ∈ after.classes, ∀ e, ClassFile.encodeClass c = .error e → e.unplaced? = none := by
  have htangled : tangled.LabelsClosed := by decide
  have hguarded : guarded.LabelsClosed := by decide
  have hfive : (run (rewriting.take 5) (single tangled)).run.2.toOption.isSome = true := by decide +kernel
  have hsix : (run rewriting (single guarded)).run.2.toOption.isSome = true := by decide +kernel
  refine ⟨⟨htangled, ?_⟩, hguarded, ?_⟩
  · obtain ⟨lines, after, reports, hrun⟩ := exists_run_eq hfive
    exact ⟨lines, after, reports, hrun,
      rewriting_closes_labels (labelsClosed_single htangled) (List.take_prefix 5 rewriting) hrun⟩
  · obtain ⟨lines, after, reports, hrun⟩ := exists_run_eq hsix
    exact ⟨lines, after, reports, hrun,
      rewriting_closes_labels (labelsClosed_single hguarded) (List.prefix_refl rewriting) hrun⟩

end Examples

end Plan

end Unscramble
