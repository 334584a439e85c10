/-
Removing dead code keeps exactly what execution can come to.  What is left are the instructions that can be reached and
the labels of the handler ranges that are left, in their old order.  Each of them goes on to the instructions to which
it went on before, and its exceptions come to the same handlers.  So there is nothing left for a second run.
-/
import Mathlib.Data.Set.Card
import Unscramble.Proofs.CodePasses

namespace Unscramble

/-- The handlers of the exceptions of an instruction with the exceptions that they take, in the order of their
ranges. -/
def Flow.handlersAt (flow : Flow) (tries : List TryBlock) (index : Nat) : List (Nat × Option String) :=
  (flow.handlers.zip tries).filterMap fun entry =>
    if entry.1.covers index then some (entry.1.handler, entry.2.catchType) else none

namespace MethodDecl

/-- Execution can come to the instruction at an index. -/
def Live (m : MethodDecl) (index : Nat) : Prop :=
  index < m.code.length ∧ ∃ flow, Flow.ofMethod m = .ok flow ∧ flow.Reaches index

/-- A method is what is left of another one without its dead code: the instructions at the places that are `kept`. -/
structure Trims (m m' : MethodDecl) (kept : List Nat) (removed : Nat) : Prop where
  /-- Only the code and the handler ranges change. -/
  rest : m' = { m with code := m'.code, tries := m'.tries }
  /-- Each instruction is that of its old place. -/
  instrs : m'.code.map some = kept.map (m.code[·]?)
  /-- The instructions keep their order. -/
  ascending : kept.Pairwise (· < ·)
  /-- What stays is what can be reached, with the labels of the ranges that stay. -/
  stays : ∀ index, index ∈ kept ↔ m.Live index ∨ ∃ block ∈ m'.tries,
    ∃ l ∈ [block.start, block.stop, block.handler], m.code[index]? = some (.label l)
  /-- The ranges that stay are those with a handler that can be reached, in their order. -/
  tries : ∃ live : TryBlock → Bool, m'.tries = m.tries.filter live ∧ ∀ block ∈ m.tries,
    live block = true ↔ ∃ place, place? (labelPlaces m.code) block.handler = some place ∧ m.Live place
  /-- The other instructions are counted, but not the markers among them. -/
  counted : removed =
    {index | ¬ m.Live index ∧ ∃ instr, m.code[index]? = some instr ∧ instr.isMarker = false}.ncard
  /-- What can be reached goes on to the new places of its successors and of its handlers. -/
  flow : m.code ≠ [] → ∃ flow flow', Flow.ofMethod m = .ok flow ∧ Flow.ofMethod m' = .ok flow' ∧
    ∀ index, flow.Reaches index →
      (∃ instr effect next, flow.code[index]? = some (instr, effect) ∧
        flow'.code[kept.idxOf index]? = some (instr, effect) ∧
        flow.successors index instr effect = .ok next ∧
        flow'.successors (kept.idxOf index) instr effect = .ok (next.map kept.idxOf)) ∧
      flow'.handlersAt m'.tries (kept.idxOf index) =
        (flow.handlersAt m.tries index).map (Prod.map kept.idxOf id)

end MethodDecl

/-- The handler of a range at an instruction that it covers. -/
def TryBlock.handlerAt? (places : List (Label × Nat)) (index : Nat) (block : TryBlock) : Option (Nat × Option String) :=
  match place? places block.start, place? places block.stop, place? places block.handler with
  | some start, some stop, some handler =>
      if HandlerRange.covers ⟨start, stop, handler⟩ index then some (handler, block.catchType) else none
  | _, _, _ => none

theorem Flow.Describes.handlersAt_eq {flow : Flow} {m : MethodDecl} (h : flow.Describes m) (index : Nat) :
    flow.handlersAt m.tries index = m.tries.filterMap (TryBlock.handlerAt? (labelPlaces m.code) index) := by
  have hpairs := h.handlers
  unfold handlersAt
  generalize m.tries = tries at hpairs ⊢
  generalize flow.handlers = handlers at hpairs ⊢
  induction hpairs with
  | nil => rfl
  | cons hfirst _ ih =>
      obtain ⟨hstart, hstop, hhandler⟩ := hfirst
      simp only [List.zip_cons_cons, List.filterMap_cons, ih, TryBlock.handlerAt?, hstart, hstop, hhandler]

namespace DeadCode

variable {frames : Array (Option (Frame Kind))} {m : MethodDecl} {flow flow' : Flow} {entry : Frame Kind}
  {edges : List (Nat × Nat)}

/-- What is left of a method has a flow again. -/
theorem exists_flow_prune (hflow : flow.Describes m) : ∃ flow', Flow.ofMethod (prune frames m).1 = .ok flow' := by
  refine Flow.exists_ofMethod (fun block hblock label hlabel => ?_) fun instr hinstr => ?_
  · obtain ⟨range, -, hstart, hstop, hhandler⟩ := hflow.exists_range (mem_liveTries.1 hblock).1
    have hplace : ∃ place, place? (labelPlaces m.code) label = some place := by
      simp only [List.mem_cons, List.not_mem_nil, or_false] at hlabel
      rcases hlabel with rfl | rfl | rfl
      · exact ⟨_, hstart⟩
      · exact ⟨_, hstop⟩
      · exact ⟨_, hhandler⟩
    obtain ⟨place, hplace⟩ := hplace
    have hmoved := place?_prune (label_mem_kept hblock hlabel hplace) hplace
    exact List.mem_of_getElem? (place?_labelPlaces hmoved)
  · obtain ⟨index, hindex⟩ := List.mem_iff_getElem?.1 ((code_prune_sublist frames m).subset hinstr)
    obtain ⟨effect, -, heffect⟩ := hflow.exists_effect hindex
    exact ⟨effect, heffect⟩

section Reached

variable (h : Analysis.Complete Domain.kinds flow entry frames edges) (hflow : flow.Describes m)

include h hflow

/-- A range that is dropped covers nothing that can be reached, and one that stays covers the same instructions. -/
theorem handlerAt?_prune {block : TryBlock} (hblock : block ∈ m.tries) {index : Nat} (hreach : flow.Reaches index) :
    (block.handlerAt? (labelPlaces m.code) index).map (Prod.map (kept frames m).idxOf id) =
      if block ∈ liveTries frames m then
        block.handlerAt? (labelPlaces (prune frames m).1.code) ((kept frames m).idxOf index)
      else none := by
  obtain ⟨range, hrange, hstart, hstop, hhandler⟩ := hflow.exists_range hblock
  simp only [TryBlock.handlerAt?, hstart, hstop, hhandler]
  by_cases hlive : block ∈ liveTries frames m
  · have hstartKept := label_mem_kept hlive (by simp) hstart
    have hstopKept := label_mem_kept hlive (by simp) hstop
    have hhandlerKept := label_mem_kept hlive (by simp) hhandler
    have hmoved : HandlerRange.covers ⟨(kept frames m).idxOf range.start, (kept frames m).idxOf range.stop,
        (kept frames m).idxOf range.handler⟩ ((kept frames m).idxOf index) = range.covers index :=
      covers_idxOf (ascending_kept frames m) hstartKept hstopKept (mem_kept_of_reaches h hflow hreach) rfl rfl
    rw [if_pos hlive, place?_prune hstartKept hstart, place?_prune hstopKept hstop, place?_prune hhandlerKept hhandler]
    simp only [hmoved]
    split <;> rfl
  · have hcovers : range.covers index = false := by
      cases hcovers : range.covers index with
      | false => rfl
      | true => exact absurd ((mem_liveTries_iff h hhandler).2 ⟨hblock, hreach.handler hrange hcovers⟩) hlive
    rw [if_neg hlive, hcovers, if_neg Bool.false_ne_true, Option.map_none]

/-- The exceptions of an instruction that can be reached come to the new places of its handlers. -/
theorem handlersAt_prune (hflow' : flow'.Describes (prune frames m).1) {index : Nat} (hreach : flow.Reaches index) :
    flow'.handlersAt (prune frames m).1.tries ((kept frames m).idxOf index) =
      (flow.handlersAt m.tries index).map (Prod.map (kept frames m).idxOf id) := by
  rw [hflow.handlersAt_eq, hflow'.handlersAt_eq, List.map_filterMap]
  change (liveTries frames m).filterMap _ = _
  rw [liveTries, List.filterMap_filter]
  refine List.filterMap_congr fun block hblock => ?_
  rw [handlerAt?_prune h hflow hblock hreach]
  simp [liveTries, hblock]

end Reached

/-- What an analysis reached is what execution can come to. -/
theorem live_iff (hframes : (analyze Domain.kinds m).result = .ok frames) {index : Nat} :
    m.Live index ↔ reached frames index = true := by
  by_cases hcode : m.code = []
  · simp [MethodDecl.Live, hcode, Analysis.frames_of_noCode hcode hframes, reached]
  · obtain ⟨flow, entry, hflow, -, hcomplete⟩ := Analysis.isFixpoint_of_lawful Domain.kinds_lawful hcode hframes
    rw [reached_iff, hcomplete.reached]
    constructor
    · rintro ⟨-, flow', hflow', hreach⟩
      obtain rfl := Except.ok.inj (hflow.symm.trans hflow')
      exact hreach
    · intro hreach
      exact ⟨(Flow.ofMethod_describes hflow).size_eq ▸ hcomplete.lt_size hreach, flow, hflow, hreach⟩

theorem isOneOf_pinned {tries : List TryBlock} {instr : Instr} : isOneOf (pinned tries) instr = true ↔
    ∃ block ∈ tries, ∃ l ∈ [block.start, block.stop, block.handler], instr = .label l := by
  cases instr <;> simp [isOneOf, pinned]

/-- The places of the instructions that go. -/
def gone (frames : Array (Option (Frame Kind))) (m : MethodDecl) : List Nat :=
  (m.code.zipIdx.filter fun entry => !reached frames entry.2 && !entry.1.isMarker).map Prod.snd

theorem mem_gone {index : Nat} : index ∈ gone frames m ↔
    ¬ reached frames index = true ∧ ∃ instr, m.code[index]? = some instr ∧ instr.isMarker = false := by
  simp [gone, List.mem_zipIdx_iff_getElem?, and_left_comm]

theorem nodup_gone (frames : Array (Option (Frame Kind))) (m : MethodDecl) : (gone frames m).Nodup := by
  have hascending : (gone frames m).Pairwise (· < ·) := List.pairwise_map.2 ((pairwise_zipIdx m.code).filter _)
  exact hascending.nodup

/-- Only a marker can stay without having been reached. -/
theorem count_prune (frames : Array (Option (Frame Kind))) (m : MethodDecl) :
    (prune frames m).2 = (gone frames m).length := by
  rw [gone, List.length_map, ← List.countP_eq_length_filter, prune]
  refine List.countP_congr fun entry _ => ?_
  obtain ⟨instr, index⟩ := entry
  cases instr <;> simp [stays, isOneOf, Instr.isMarker, Instr.opcode?]

/-- An analysis tells what is left of a method. -/
theorem trims_prune (hframes : (analyze Domain.kinds m).result = .ok frames) :
    m.Trims (prune frames m).1 (kept frames m) (prune frames m).2 where
  rest := rfl
  instrs := code_prune_map_some frames m
  ascending := ascending_kept frames m
  stays := by
    intro index
    rw [mem_kept, live_iff hframes]
    constructor
    · rintro ⟨instr, hinstr, hstays⟩
      refine (Bool.or_eq_true_iff.1 hstays).imp id fun hlabel => ?_
      obtain ⟨block, hblock, l, hl, rfl⟩ := isOneOf_pinned.1 hlabel
      exact ⟨block, hblock, l, hl, hinstr⟩
    · rintro (hreached | ⟨block, hblock, l, hl, hinstr⟩)
      · have hlt := ((live_iff hframes).2 hreached).1
        exact ⟨_, List.getElem?_eq_getElem hlt, Bool.or_eq_true_iff.2 (.inl hreached)⟩
      · exact ⟨.label l, hinstr, Bool.or_eq_true_iff.2 (.inr (isOneOf_pinned.2 ⟨block, hblock, l, hl, rfl⟩))⟩
  tries := by
    refine ⟨_, rfl, fun block _ => ?_⟩
    simp only [Option.any_eq_true, live_iff hframes]
  counted := by
    have hgone : {index | ¬ m.Live index ∧ ∃ instr, m.code[index]? = some instr ∧ instr.isMarker = false} =
        ↑(gone frames m).toFinset := by
      ext index
      rw [Set.mem_ofPred_eq, live_iff hframes, Finset.mem_coe, List.mem_toFinset, mem_gone]
    rw [hgone, Set.ncard_coe_finset, List.toFinset_card_of_nodup (nodup_gone frames m), count_prune]
  flow := by
    intro hcode
    obtain ⟨flow, entry, hflow, -, hcomplete⟩ := Analysis.isFixpoint_of_lawful Domain.kinds_lawful hcode hframes
    have hdescribes := Flow.ofMethod_describes hflow
    obtain ⟨flow', hflow'⟩ := exists_flow_prune hdescribes
    have hdescribes' := Flow.ofMethod_describes hflow'
    exact ⟨flow, flow', hflow, hflow', fun index hreach =>
      ⟨successors_prune hcomplete hdescribes hdescribes' hreach,
        handlersAt_prune hcomplete hdescribes hdescribes' hreach⟩⟩

/-- Where all ranges have a handler that was reached and everything stays, nothing changes. -/
theorem prune_eq_self (hlive : liveTries frames m = m.tries)
    (hstays : ∀ index instr, m.code[index]? = some instr → stays frames (pinned m.tries) (instr, index) = true) :
    prune frames m = (m, 0) := by
  have hall : ∀ entry ∈ m.code.zipIdx, stays frames (pinned m.tries) entry = true :=
    fun entry hentry => hstays entry.2 entry.1 (List.mem_zipIdx_iff_getElem?.1 hentry)
  have hcode : m.code.zipIdx.filter (stays frames (pinned m.tries)) = m.code.zipIdx := List.filter_eq_self.2 hall
  have hcount : (m.code.zipIdx.countP fun entry =>
      !stays frames (pinned m.tries) entry && !entry.1.isMarker) = 0 :=
    List.countP_eq_zero.2 fun entry hentry => by simp [hall entry hentry]
  simp only [prune, hlive, hcode, hcount, List.zipIdx_map_fst]

/-- What was reached before is reached by an analysis of what is left. -/
theorem reached_prune {frames' : Array (Option (Frame Kind))} (hframes : (analyze Domain.kinds m).result = .ok frames)
    (hframes' : (analyze Domain.kinds (prune frames m).1).result = .ok frames') {index : Nat}
    (hreached : reached frames index = true) : reached frames' ((kept frames m).idxOf index) = true := by
  obtain ⟨hlt, flow, hflow, hreach⟩ := (live_iff hframes).2 hreached
  have hcode : m.code ≠ [] := List.ne_nil_of_length_pos (Nat.zero_lt_of_lt hlt)
  obtain ⟨flow, entry, hflow', -, hcomplete⟩ := Analysis.isFixpoint_of_lawful Domain.kinds_lawful hcode hframes
  obtain rfl := Except.ok.inj (hflow.symm.trans hflow')
  have hdescribes := Flow.ofMethod_describes hflow
  obtain ⟨flow', hflow'⟩ := exists_flow_prune hdescribes
  have hdescribes' := Flow.ofMethod_describes hflow'
  obtain ⟨instr, effect, next, -, hinstr, -⟩ := successors_prune hcomplete hdescribes hdescribes' hreach
  have hlt' := hdescribes'.size_eq ▸ (Array.getElem?_eq_some_iff.1 hinstr).1
  exact (live_iff hframes').1 ⟨hlt', flow', hflow', reaches_prune hcomplete hdescribes hdescribes' hreach⟩

end DeadCode

namespace MethodDecl

variable {m m' : MethodDecl}

/-- Removing dead code from the method changes nothing. -/
def Settled (m : MethodDecl) : Prop :=
  m.code ≠ [] → ∀ frames, (analyze Domain.kinds m).result = .ok frames → DeadCode.prune frames m = (m, 0)

/-- What is left without dead code has none. -/
theorem settled_removeDeadCode {count : Nat} (h : m.removeDeadCode = .ok (m', count)) : m'.Settled := by
  obtain ⟨frames, hframes, rfl⟩ := removeDeadCode_eq_ok h
  intro _ frames' hframes'
  have hlive : DeadCode.liveTries frames' (DeadCode.prune frames m).1 = (DeadCode.prune frames m).1.tries := by
    refine List.filter_eq_self.2 fun block hblock => ?_
    obtain ⟨-, place, hplace, hreached⟩ := DeadCode.mem_liveTries.1 hblock
    have hmoved := DeadCode.place?_prune (DeadCode.label_mem_kept hblock (by simp) hplace) hplace
    rw [hmoved]
    exact DeadCode.reached_prune hframes hframes' hreached
  refine DeadCode.prune_eq_self hlive fun index' instr hinstr => ?_
  -- the instruction has stayed because it was reached or because a range needs it, and so it stays again
  rw [getElem?_of_layout (DeadCode.code_prune_map_some frames m)] at hinstr
  obtain ⟨index, hindex', hindex⟩ := Option.bind_eq_some_iff.1 hinstr
  obtain ⟨hlt, rfl⟩ := List.getElem?_eq_some_iff.1 hindex'
  obtain ⟨instr', hinstr', hstays⟩ := DeadCode.mem_kept.1 (List.getElem_mem hlt)
  obtain rfl := Option.some.inj (hindex.symm.trans hinstr')
  refine Bool.or_eq_true_iff.2 ((Bool.or_eq_true_iff.1 hstays).imp (fun hreached => ?_) id)
  have hagain := DeadCode.reached_prune hframes hframes' hreached
  rwa [(DeadCode.ascending_kept frames m).nodup.idxOf_getElem index' hlt] at hagain

end MethodDecl

/-- After the pass no method has dead code. -/
theorem Pass.deadCode_settles : deadCode.Brings (fun _ => True) MethodDecl.Settled := by
  intro verbose pool hpool
  refine ClassPool.gives_traverseMethods hpool (fun c m _ => ?_) fun r => ?_
  · split
    · next hnone => exact .pure fun hcode => absurd hcode (by simpa [MethodDecl.hasCode] using hnone)
    · split
      · next hresult => exact .pure (MethodDecl.settled_removeDeadCode hresult)
      · next hresult =>
          refine (Logged.Gives.any _).bind fun _ _ => .pure fun _ frames hframes => ?_
          rw [MethodDecl.removeDeadCode, hframes] at hresult
          cases hresult
  · exact (Logged.Gives.any _).bind fun _ _ => .pure rfl

/-- Where no method has dead code, the pass changes nothing. -/
theorem ClassPool.yields_removeDeadCode {ε : Type} {pool : ClassPool} (h : pool.All MethodDecl.Settled) :
    (pool.removeDeadCode : Logged ε (ClassPool × Nat)).Yields (pool, 0) := by
  refine (ClassPool.yields_traverseMethods_same (r := 0) fun placed hplaced => ?_).bind
    ((Logged.Yields.note _ _).bind ?_)
  · obtain ⟨hc, hm⟩ := ClassPool.mem_methods.1 hplaced
    split
    · exact .pure _
    · next hcode =>
        split
        · next r hresult =>
            obtain ⟨frames, hframes, rfl⟩ := map_eq_ok.1 hresult
            rw [h placed.1 hc placed.2 hm (by simpa [MethodDecl.hasCode] using hcode) frames hframes]
            exact .pure _
        · exact (Logged.Yields.note _ _).bind (.pure _)
  · rw [total_const, Nat.mul_zero]
    exact .pure _

/-- Removing dead code leaves of a method exactly what execution can come to, with its control flow, and a second run over
a program changes nothing. -/
theorem Pass.deadCode_trims :
    (∀ m frames, (analyze Domain.kinds m).result = .ok frames →
      ∃ m' kept removed, m.removeDeadCode = .ok (m', removed) ∧ m.Trims m' kept removed) ∧
    ∀ pool lines pool' count, (deadCode.run pool).run = (lines, .ok (pool', count)) →
      ∃ lines', (deadCode.run pool').run = (lines', .ok (pool', 0)) := by
  constructor
  · intro m frames hframes
    exact ⟨_, _, _, map_eq_ok.2 ⟨frames, hframes, rfl⟩, DeadCode.trims_prune hframes⟩
  · intro pool lines pool' count hrun
    have hsettled := (deadCode_settles true pool fun _ _ _ _ => trivial).of_run hrun
    exact (ClassPool.yields_removeDeadCode hsettled).exists_run

section Examples

/-- A range ends at a label in the middle of dead code, and another one covers dead code only. -/
def riddled : MethodDecl where
  name := "riddled"
  descriptor := "(I)I"
  access := Access.staticBit
  code := [.label ⟨0⟩, .var Opcode.iload 0, .jump Opcode.ifeq ⟨2⟩, .jump Opcode.goto ⟨2⟩, .label ⟨1⟩, .line 7,
    .iinc 0 1, .label ⟨3⟩, .jump Opcode.goto ⟨0⟩, .label ⟨2⟩, .var Opcode.iload 0, .simple Opcode.ireturn, .label ⟨4⟩,
    .simple Opcode.athrow, .label ⟨5⟩, .simple Opcode.athrow]
  tries := [⟨⟨1⟩, ⟨2⟩, ⟨5⟩, none⟩, ⟨⟨0⟩, ⟨3⟩, ⟨4⟩, some "E"⟩]

/-- What is left: the label at which the second range ends stays without its surroundings. -/
def riddledRest : MethodDecl where
  name := "riddled"
  descriptor := "(I)I"
  access := Access.staticBit
  code := [.label ⟨0⟩, .var Opcode.iload 0, .jump Opcode.ifeq ⟨2⟩, .jump Opcode.goto ⟨2⟩, .label ⟨3⟩, .label ⟨2⟩,
    .var Opcode.iload 0, .simple Opcode.ireturn, .label ⟨4⟩, .simple Opcode.athrow]
  tries := [⟨⟨0⟩, ⟨3⟩, ⟨4⟩, some "E"⟩]

theorem riddled_trims :
    (∃ frames, (analyze Domain.kinds riddled).result = .ok frames) ∧ riddled.removeDeadCode = .ok (riddledRest, 3) ∧
      (∃ kept, riddled.Trims riddledRest kept 3) ∧
      ∃ lines pool' count, (Pass.deadCode.run (Plan.single riddled)).run = (lines, .ok (pool', count)) ∧
        ∃ lines', (Pass.deadCode.run pool').run = (lines', .ok (pool', 0)) := by
  have hremoved : riddled.removeDeadCode.toOption = some (riddledRest, 3) := by decide +kernel
  have hpass : (Pass.deadCode.run (Plan.single riddled)).run.2.toOption.isSome = true := by decide +kernel
  obtain ⟨hmethod, hpool⟩ := Pass.deadCode_trims
  cases hframes : (analyze Domain.kinds riddled).result with
  | error reason => simp [MethodDecl.removeDeadCode, hframes, Except.map, Except.toOption] at hremoved
  | ok frames =>
      obtain ⟨m', kept, removed, hresult, htrims⟩ := hmethod riddled frames hframes
      rw [hresult] at hremoved
      obtain ⟨rfl, rfl⟩ := Prod.mk.inj (Option.some.inj hremoved)
      refine ⟨⟨frames, rfl⟩, hresult, ⟨kept, htrims⟩, ?_⟩
      cases hrun : (Pass.deadCode.run (Plan.single riddled)).run with
      | mk lines result =>
          cases result with
          | error reason => simp [hrun, Except.toOption] at hpass
          | ok r => exact ⟨lines, r.1, r.2, rfl, hpool _ _ _ _ hrun⟩

end Examples

end Unscramble
