/-
Runs are as the symbolic expressions say.  A run that comes to an instruction has the kinds of the frame of kinds in its
slots and on its stack, so values go where the expressions go; and each value on its stack is as the expression at the
same place says.  One step keeps this, along every path and at every handler.
-/
import Unscramble.Proofs.StoreKinds
import Unscramble.Proofs.SymbolicFrames

namespace Unscramble

namespace Machine

variable {σ : Type} {w : World σ} {instr : Instr} {effect : Effect} {s s' : Store σ} {index count : Nat}

section Expressions

variable {code : List Instr} {f after : Frame Expr}

/-- The result of an instruction is as the expression says that the instruction leaves in the frame. -/
theorem satisfies_made {v : Value} {e : Expr} {memory memory' : Memory σ} (hinstr : code[index]? = some instr)
    (hcount : effect.operands? = some count) (hstack : List.Forall₂ (Expr.Satisfies code) f.stack s.stack)
    (hmade : Frame.made Domain.exprs index instr effect f.stack = some e)
    (hoperate : operate w instr (s.stack.take count) memory = some (.done (some v) memory')) :
    e.Satisfies code v := by
  cases effect with
  | push kind =>
      cases hcount
      obtain rfl := Option.some.inj hmade
      simp only [Domain.exprs]
      split
      · next n hconstant =>
          rw [List.take_zero, operate_constant hconstant] at hoperate
          cases hoperate
          rfl
      · trivial
  | unary result =>
      obtain ⟨kind, -, rfl⟩ := Option.map_eq_some_iff.1 hmade
      trivial
  | nary arity result =>
      obtain ⟨kind, -, rfl⟩ := Option.map_eq_some_iff.1 hmade
      trivial
  | binary result =>
      cases hcount
      generalize f.stack = es at hstack hmade
      generalize s.stack = vs at hstack hoperate
      rcases hstack with _ | @⟨right, b, _, _, hb, _ | @⟨left, a, _, _, ha, _⟩⟩
      · cases hmade
      · cases hmade
      · obtain ⟨kind, -, rfl⟩ := Option.map_eq_some_iff.1 hmade
        by_cases hring : Expr.isSum instr ∨ Expr.isProduct instr
        · obtain ⟨op, rfl⟩ := Expr.exists_simple hring
          rw [operate_ring hring] at hoperate
          obtain ⟨v', hv', hoperate⟩ := Option.map_eq_some_iff.1 hoperate
          cases hoperate
          exact Expr.satisfies_combine hinstr ha hb hv'
        · exact Expr.satisfies_of_isVar (Expr.isVar_combine hring)
  | nop | ternary => cases hmade
  | _ => cases hcount

/-- The result that takes the place of the operands is as the expression that takes theirs. -/
theorem satisfies_operands (hinstr : code[index]? = some instr) (heffect : Effect.ofInstr instr = .ok effect)
    (hcount : effect.operands? = some count) (hstack : List.Forall₂ (Expr.Satisfies code) f.stack s.stack)
    (hexecute : f.execute Domain.exprs index instr effect = .ok after)
    (hstore : (execWith w instr s effect).store? = some s') :
    List.Forall₂ (Expr.Satisfies code) after.stack s'.stack := by
  obtain ⟨hlong, rfl⟩ := Frame.execute_operands_eq_ok hcount hexecute
  obtain ⟨-, result, hleft, hresult, houtcome⟩ := store?_of_operands hcount heffect hstore
  rw [hleft]
  refine List.rel_append ?_ (List.forall₂_drop count hstack)
  have hboth := Frame.made_related Domain.exprs_kinded index instr hcount hlong
  rw [← hresult] at hboth
  cases result with
  | none =>
      rw [List.forall₂_nil_left_iff.1 hboth]
      exact .nil
  | some v =>
      obtain ⟨e, rest, -, hrest, hmade⟩ := List.forall₂_cons_left_iff.1 hboth
      obtain rfl := List.forall₂_nil_left_iff.1 hrest
      obtain ⟨memory, hoperate⟩ := houtcome v rfl
      rw [hmade]
      refine .cons (satisfies_made hinstr hcount hstack ?_ hoperate) .nil
      exact Option.toList_eq_singleton_iff.1 hmade

/-- Values of the sizes of the expressions go where these go. -/
theorem satisfies_moving (hmoving : effect.isMoving)
    (hstack : List.Forall₂ (Expr.Satisfies code) f.stack s.stack)
    (hsizes : List.Forall₂ (fun e v => e.origin.size = Value.size v) f.stack s.stack)
    (hexecute : f.execute Domain.exprs index instr effect = .ok after)
    (hstore : (execWith w instr s effect).store? = some s') :
    List.Forall₂ (Expr.Satisfies code) after.stack s'.stack := by
  obtain ⟨stack, hmoved, rfl⟩ := Frame.execute_moving_eq_ok hmoving hexecute
  obtain ⟨stack', hmoved', rfl⟩ := store?_of_moving hmoving hstore
  obtain ⟨moved, hshuffled, hboth⟩ : ∃ moved, Frame.shuffle Value.size id effect s.stack = some moved ∧
      List.Forall₂ (fun e v => e.Satisfies code v ∧ e.origin.size = Value.size v) stack moved :=
    Frame.shuffle_forall₂ (fun e v hv => hv.2) (fun e v hv => ⟨trivial, hv.2⟩)
      (hstack.mp (fun _ _ => And.intro) hsizes) hmoved
  obtain rfl := Option.some.inj (hmoved'.symm.trans hshuffled)
  exact hboth.imp fun _ _ hv => hv.1

/-- An instruction leaves values that are as the expressions say that it leaves in the frame. -/
theorem satisfies_execute (hinstr : code[index]? = some instr) (heffect : Effect.ofInstr instr = .ok effect)
    (hstack : List.Forall₂ (Expr.Satisfies code) f.stack s.stack)
    (hsizes : List.Forall₂ (fun e v => e.origin.size = Value.size v) f.stack s.stack)
    (hexecute : f.execute Domain.exprs index instr effect = .ok after)
    (hstore : (execWith w instr s effect).store? = some s') :
    List.Forall₂ (Expr.Satisfies code) after.stack s'.stack := by
  cases effect using Effect.byShape with
  | operands effect count hcount => exact satisfies_operands hinstr heffect hcount hstack hexecute hstore
  | moving effect hmoving => exact satisfies_moving hmoving hstack hsizes hexecute hstore
  | load slot =>
      obtain rfl := store?_of_load hstore
      obtain ⟨e, -, rfl⟩ := Frame.execute_load_eq_ok.1 hexecute
      exact .cons trivial hstack
  | store slot =>
      obtain ⟨v, rest, hv, rfl⟩ := store?_of_store hstore
      obtain ⟨e, es, stored, he, -, rfl⟩ := Frame.execute_store_eq_ok.1 hexecute
      exact (List.forall₂_cons.1 (he ▸ hv ▸ hstack)).2
  | iinc slot =>
      obtain ⟨n, rfl⟩ := store?_of_iinc hstore
      obtain ⟨-, stored, -, rfl⟩ := Frame.execute_iinc_eq_ok.1 hexecute
      exact hstack
  | exit effect hexit =>
      rw [store?_of_exit hexit] at hstore
      cases hstore

end Expressions

section Runs

variable {m : MethodDecl} {flow : Flow} {q : Progress Kind} {p : Progress Expr} {pc pc' : Nat}
  {GoodKinds : Nat → Frame Kind → Prop} {kinds : Frame Kind} {exprs : Frame Expr}

/-- The store of a run at an instruction: it has the kinds of the frame there, and the values on its stack are as the
expressions say. -/
structure Shown (q : Progress Kind) (p : Progress Expr) (code : List Instr) (index : Nat) (s : Store σ) : Prop where
  kinds : ∃ kinds, q.frameAt index = some kinds ∧ s.Conforms kinds
  exprs : ∃ exprs, p.frameAt index = some exprs ∧ List.Forall₂ (Expr.Satisfies code) exprs.stack s.stack

/-- A store that comes to an instruction behind frames that have come to it. -/
theorem Shown.arrive {code : List Instr} (hkinds : q.Holds (Frame.Above Domain.kinds) index kinds)
    (hexprs : p.Holds (Analysis.CoversStack code) index exprs) (hconforms : s.Conforms kinds)
    (hsatisfies : List.Forall₂ (Expr.Satisfies code) exprs.stack s.stack) : Shown q p code index s := by
  obtain ⟨upper, hupper, habove⟩ := hkinds
  obtain ⟨cover, hcover, hcovers⟩ := hexprs
  exact ⟨⟨upper, hupper, hconforms.of_above habove⟩, cover, hcover,
    forall₂_comp (fun _ _ v hcovers hv => hcovers v hv) hcovers hsatisfies⟩

variable (hflow : flow.Describes m)
  (hq : Analysis.Steady Domain.kinds GoodKinds (Frame.Above Domain.kinds) flow kinds q) (hqueue : q.pending = [])
  (hknown : ∀ index frame, q.frameAt index = some frame → .uninitialized ∉ frame.stack)
  (hp : Analysis.Steady Domain.exprs (Analysis.SizedAt q) (Analysis.CoversStack m.code) flow exprs p)
  (hqueue' : p.pending = [])

include hflow hq hqueue hknown hp hqueue'

/-- One step of a run. -/
theorem Shown.step (hs : Shown q p m.code pc s) (h : step w m (.running pc s) = .running pc' s') :
    Shown q p m.code pc' s' := by
  obtain ⟨⟨kinds, hkinds, hconforms⟩, exprs, hexprs, hsatisfies⟩ := hs
  obtain ⟨instr, effect, kinds', next, hcode, hexecute, hnext, htargets, hhandlers⟩ :=
    hq.followed pc kinds hkinds (by simp [hqueue])
  obtain ⟨_, _, exprs', _, hcode', hexecute', hnext', htargets', hhandlers'⟩ :=
    hp.followed pc exprs hexprs (by simp [hqueue'])
  obtain ⟨rfl, rfl⟩ := Prod.mk.inj (Option.some.inj (hcode.symm.trans hcode'))
  obtain rfl := Except.ok.inj (hnext.symm.trans hnext')
  have hinstr := hflow.getElem?_code hcode
  obtain ⟨effect', hcode', heffect⟩ := hflow.exists_effect hinstr
  obtain ⟨-, rfl⟩ := Prod.mk.inj (Option.some.inj (hcode.symm.trans hcode'))
  have hstack := hknown pc kinds hkinds
  have hsizes : List.Forall₂ (fun e v => e.origin.size = Value.size v) exprs.stack s.stack := by
    obtain ⟨⟨kinds', hkinds', hrelated⟩, -⟩ := hp.sound.frames pc exprs hexprs
    obtain rfl := Option.some.inj (hkinds.symm.trans hkinds')
    have hsized := Frame.sizes_of_known Domain.exprs_kinded hrelated.2 hstack
    exact forall₂_comp (fun e kind v he hv => he.2.trans (congrArg Kind.size hv.symm)) hsized.flip
      (kinds_of_known hconforms.stack hstack)
  -- Wherever the instruction leads, its store conforms to the frame after it.
  have hleaves : ∀ target ∈ next, ∀ left, (execWith w instr s effect).store? = some left →
      Shown q p m.code target left := fun target htarget left hleft =>
    .arrive (htargets target htarget).2 (htargets' target htarget).2 (hconforms.execute hstack heffect hexecute hleft)
      (satisfies_execute hinstr heffect hsatisfies hsizes hexecute' hleft)
  rw [Machine.step, hinstr] at h
  simp only [exec_of_effect heffect] at h
  cases haction : execWith w instr s effect with
  | next left =>
      rw [haction] at h
      cases h
      exact hleaves _ (mem_successors_of_next heffect hnext haction) s' (by rw [haction]; rfl)
  | jump target left =>
      rw [haction, proceed] at h
      split at h
      · next place hplace =>
          cases h
          refine hleaves _ (mem_successors_of_jump ?_ (execWith_eq_jump haction) hnext) s' (by rw [haction]; rfl)
          rw [hflow.places, hplace]
      · cases h
  | throw exception memory =>
      rw [haction, proceed] at h
      split at h
      · next hreference =>
          split at h
          · next place hplace =>
              cases h
              obtain ⟨range, hrange, hcovers, rfl⟩ := exists_range_of_handler? hflow hplace
              exact .arrive (hhandlers range hrange hcovers) (hhandlers' range hrange hcovers)
                ⟨hconforms.locals, .cons (.inr hreference) .nil⟩ (.cons trivial .nil)
          · cases h
      · cases h
  | leave result memory =>
      rw [haction] at h
      cases h
  | stuck =>
      rw [haction] at h
      cases h

/-- A run of any length. -/
theorem Shown.run {steps : Nat} (hs : Shown q p m.code pc s) (h : run w m steps (.running pc s) = .running pc' s') :
    Shown q p m.code pc' s' := by
  induction steps generalizing pc' s' with
  | zero =>
      cases h
      exact hs
  | succ steps ih =>
      rw [Machine.run, Function.iterate_succ_apply'] at h
      cases hbefore : (Machine.step w m)^[steps] (.running pc s) with
      | running last left =>
          rw [hbefore] at h
          exact (ih hbefore).step hflow hq hqueue hknown hp hqueue' h
      | _ =>
          rw [hbefore] at h
          cases h

end Runs

end Machine

namespace Analysis

variable {σ : Type} {m : MethodDecl}

/-- The values on the stack of a run are as the expressions of the frame say that an analysis has found there. -/
theorem stack_satisfies {kinds : Array (Option (Frame Kind))} {exprs : Array (Option (Frame Expr))}
    (hkinds : (analyze Domain.kinds m).result = .ok kinds)
    (hknown : ∀ (index : Nat) (frame : Frame Kind), kinds[index]? = some (some frame) → .uninitialized ∉ frame.stack)
    (hexprs : (analyze Domain.exprs m).result = .ok exprs) {args : List Value} {locals : UInt16 → Value}
    (hargs : m.Accepts args) (hlocals : Machine.Passes args locals) (w : World σ) (memory : Memory σ)
    {steps pc : Nat} {s : Machine.Store σ}
    (hrun : Machine.run w m steps (.running 0 ⟨locals, [], memory⟩) = .running pc s) (hpc : pc < m.code.length) :
    ∃ frame, exprs[pc]? = some (some frame) ∧ List.Forall₂ (Expr.Satisfies m.code) frame.stack s.stack := by
  have hcode : m.code ≠ [] := List.ne_nil_of_length_pos (Nat.zero_lt_of_lt hpc)
  obtain ⟨flow, kindEntry, q, hflow, hentry, hq, hqueue, rfl, -⟩ := exists_steady Domain.kinds_lawful hcode hkinds
  obtain ⟨flow', exprEntry, p, hflow', hentry', rfl, -, hsteady⟩ := exists_settled hcode hexprs
  obtain rfl := Except.ok.inj (hflow.symm.trans hflow')
  have hclean : ∀ index frame, q.frameAt index = some frame → .uninitialized ∉ frame.stack :=
    fun index frame hframe => hknown index frame (Option.join_eq_some_iff.1 hframe)
  -- The first frame of kinds has the sizes of the entry frame of expressions.
  obtain ⟨first, hfirst, habove⟩ := hq.entry
  have hsized : SizedAt q 0 exprEntry := ⟨first, hfirst,
    Frame.related_of_above Domain.exprs_kinded habove (entryFrame_related Domain.exprs_kinded hentry hentry')⟩
  obtain ⟨hp, hqueue'⟩ := hsteady _ _ (follows_exprs m.code hq hqueue hclean) hsized
  have hstart : Machine.Shown q p m.code 0 ⟨locals, [], memory⟩ := by
    refine .arrive hq.entry hp.entry (Machine.conforms_entry hargs hlocals hentry memory) ?_
    rw [entryFrame_stack hentry']
    exact .nil
  obtain ⟨-, frame, hframe, hstack⟩ :=
    hstart.run (Flow.ofMethod_describes hflow) hq hqueue hclean hp hqueue' hrun
  exact ⟨frame, Option.join_eq_some_iff.1 hframe, hstack⟩

/-- In a loop, seven times a value less three, where the value has come along either of two branches. -/
def shrunk : MethodDecl where
  name := "shrunk"
  descriptor := "(I)I"
  access := Access.staticBit
  code := [.label ⟨0⟩, .var Opcode.iload 0, .jump Opcode.ifeq ⟨1⟩, .var Opcode.iload 0, .jump Opcode.goto ⟨2⟩,
    .label ⟨1⟩, .int Opcode.bipush 5, .label ⟨2⟩, .ldc (.int 7), .simple Opcode.imul, .ldc (.int 3), .simple Opcode.isub,
    .simple Opcode.dup, .var Opcode.istore 0, .jump Opcode.ifgt ⟨0⟩, .var Opcode.iload 0, .simple Opcode.ireturn]

/-- From 2, the second time round the loop computes seven times 11 less three. -/
theorem shrunk_satisfies : ∃ kinds exprs, (analyze Domain.kinds shrunk).result = .ok kinds ∧
    (∀ (index : Nat) (frame : Frame Kind), kinds[index]? = some (some frame) → .uninitialized ∉ frame.stack) ∧
    (analyze Domain.exprs shrunk).result = .ok exprs ∧ shrunk.Accepts [.int 2] ∧
    Machine.Passes [.int 2] (fun _ => .int 2) ∧ 12 < shrunk.code.length ∧ ∀ (w : World Unit) (memory : Memory Unit),
      ∃ locals frame,
        Machine.run w shrunk 23 (.running 0 ⟨fun _ => .int 2, [], memory⟩) = .running 12 ⟨locals, [.int 74], memory⟩ ∧
        exprs[12]? = some (some frame) ∧
        frame.stack = [.add ⟨1, [11]⟩ (.mul ⟨1, [9]⟩ (.var ⟨1, [3, 6]⟩) (.const ⟨1, [8]⟩ (.int 7)))
          (.const ⟨1, [10]⟩ (.int 3))] ∧
        List.Forall₂ (Expr.Satisfies shrunk.code) frame.stack [.int 74] := by
  have hkinds : ((analyze Domain.kinds shrunk).result.toOption.any fun kinds => kinds.toList.all fun frame =>
      frame.all fun frame => !frame.stack.contains .uninitialized) = true := by decide +kernel
  have hexprs : ((analyze Domain.exprs shrunk).result.toOption.bind fun exprs => (exprs[12]?).join.map Frame.stack) =
      some [.add ⟨1, [11]⟩ (.mul ⟨1, [9]⟩ (.var ⟨1, [3, 6]⟩) (.const ⟨1, [8]⟩ (.int 7)))
        (.const ⟨1, [10]⟩ (.int 3))] := by decide +kernel
  have hparams : (Descriptor.parameters shrunk.descriptor).toOption = some [⟨.int, 0⟩] := by decide +kernel
  have hargs : shrunk.Accepts [.int 2] := ⟨_, [.int], toOption_eq_some.1 hparams, rfl, rfl⟩
  have hlocals : Machine.Passes [.int 2] (fun _ => .int 2) := by
    intro before v after hsplit slot _
    have hv : v ∈ [Value.int 2] := hsplit ▸ List.mem_append_right before List.mem_cons_self
    exact (List.mem_singleton.1 hv).symm
  obtain ⟨kinds, hresult, hall⟩ := (Option.any_eq_true _ _).1 hkinds
  obtain ⟨exprs, hresult', hframe⟩ := Option.bind_eq_some_iff.1 hexprs
  obtain ⟨frame, hframe, hstack⟩ := Option.map_eq_some_iff.1 hframe
  rw [toOption_eq_some] at hresult hresult'
  have hknown : ∀ (index : Nat) (frame : Frame Kind), kinds[index]? = some (some frame) →
      .uninitialized ∉ frame.stack := by
    intro index frame hframe
    have hclean := List.all_eq_true.1 hall (some frame) (List.mem_of_getElem? (Array.getElem?_toList.trans hframe))
    simpa using hclean
  refine ⟨kinds, exprs, hresult, hknown, hresult', hargs, hlocals, by decide, fun w memory => ?_⟩
  obtain ⟨locals, hrun⟩ : ∃ locals, Machine.run w shrunk 23 (.running 0 ⟨fun _ => .int 2, [], memory⟩) =
    .running 12 ⟨locals, [.int 74], memory⟩ := ⟨_, rfl⟩
  obtain ⟨frame', hframe', hsatisfies⟩ :=
    stack_satisfies hresult hknown hresult' hargs hlocals w memory hrun (by decide)
  obtain rfl := Option.some.inj (hframe.symm.trans (Option.join_eq_some_iff.2 hframe'))
  exact ⟨locals, frame, hrun, hframe', hstack, hsatisfies⟩

end Analysis

end Unscramble
