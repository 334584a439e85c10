/-
The stack of a method and the stack of the folded method side by side.  Of every value the second one has what its
share says: the value, a multiple of it, or nothing.  An instruction that touches no value that changes does the
same on both stacks.
-/
import Unscramble.Proofs.Arithmetic
import Unscramble.Proofs.Execution
import Unscramble.Proofs.FoldParts
import Unscramble.Proofs.RelatedFrames

namespace Unscramble

namespace Multiplier.Fold

open Machine

variable {known : List (Nat × Part)} {e e' : Expr} {es es' : List Expr} {v : Value}
  {vs vs' : List Value} {index : Nat} {instr : Instr}

/-- What is left of a value. -/
def Share.left : Option Share → Value → List Value
  | none, v => [v]
  | some .gone, _ => []
  | some (.times n), v => [n.timesValue v]

/-- What is left of a stack of values with the given expressions. -/
def leftover (known : List (Nat × Part)) : List Expr → List Value → List Value
  | e :: es, v :: vs => Share.left (shareOf known e) v ++ leftover known es vs
  | _, _ => []

/-- A value fits an expression: it has its size, and if it changes and is a constant, it is that constant. -/
structure Fits (known : List (Nat × Part)) (e : Expr) (v : Value) : Prop where
  size : e.origin.size = v.size
  constant : isPlain known e = false →
    ∀ n, (partOf? known e).bind Part.constant? = some n → v = Value.ofNumber n

theorem left_of_isPlain (h : isPlain known e) (v : Value) : Share.left (shareOf known e) v = [v] := by
  unfold isPlain at h
  split at h
  · next hshare => rw [hshare]; rfl
  · cases h
  · next n hshare =>
      rw [hshare, Share.left, Number.timesValue_of_isOne h]

theorem left_of_carries {n : Number} (h : carries known n e) (v : Value) :
    Share.left (shareOf known e) v = [n.timesValue v] := by
  rw [carries, Bool.or_eq_true, Bool.and_eq_true, beq_iff_eq] at h
  rcases h with h | ⟨hone, hplain⟩
  · rw [h]
    rfl
  · rw [left_of_isPlain hplain, Number.timesValue_of_isOne hone]

theorem left_of_isDropped {n : Number} (h : isDropped known n e) (v : Value) :
    Share.left (shareOf known e) v = [] := by
  have hpart : partOf? known e = some (.dropped n) := by simpa [isDropped] using h
  rw [shareOf, hpart]
  rfl

/-- A dropped constant is the value of its constant. -/
theorem Fits.eq_of_isDropped {n : Number} (hfits : Fits known e v) (h : isDropped known n e) :
    v = Value.ofNumber n := by
  have hpart : partOf? known e = some (.dropped n) := by simpa [isDropped] using h
  apply hfits.constant
  · rw [isPlain, shareOf, hpart]
    rfl
  · rw [hpart]
    rfl

theorem Fits.of_isPlain (hplain : isPlain known e) (hsize : e.origin.size = v.size) :
    Fits known e v :=
  ⟨hsize, fun hchanged => absurd hplain (by simp [hchanged])⟩

theorem leftover_cons_plain (h : isPlain known e) (v : Value) (es : List Expr) (vs : List Value) :
    leftover known (e :: es) (v :: vs) = v :: leftover known es vs := by
  rw [leftover, left_of_isPlain h]
  rfl

/-- The values on top of the stack that do not change stay where they are. -/
theorem leftover_append (hplain : ∀ e ∈ es, isPlain known e) (hlength : es.length = vs.length)
    (es' : List Expr) (vs' : List Value) :
    leftover known (es ++ es') (vs ++ vs') = vs ++ leftover known es' vs' := by
  induction es generalizing vs with
  | nil =>
      obtain rfl := List.length_eq_zero_iff.1 hlength.symm
      rfl
  | cons e es ih =>
      cases vs with
      | nil => cases hlength
      | cons v vs =>
          rw [List.forall_mem_cons] at hplain
          rw [List.cons_append, List.cons_append, leftover_cons_plain hplain.1,
            ih hplain.2 (Nat.succ.inj hlength), List.cons_append]

/-- Values that stand for one another have the same share. -/
theorem left_of_agree (h : agree known e e') (v : Value) :
    Share.left (shareOf known e) v = Share.left (shareOf known e') v := by
  rw [agree, Bool.and_eq_true, Bool.or_eq_true, Bool.and_eq_true, beq_iff_eq, beq_iff_eq] at h
  rcases h.2 with ⟨hplain, hplain'⟩ | hmaker
  · rw [left_of_isPlain hplain, left_of_isPlain hplain']
  · rw [shareOf, shareOf, partOf?, partOf?, hmaker]

theorem Fits.of_agree (hfits : Fits known e v) (h : agree known e e') : Fits known e' v := by
  rw [agree, Bool.and_eq_true, Bool.or_eq_true, Bool.and_eq_true, beq_iff_eq, beq_iff_eq] at h
  obtain ⟨hsize, hcases⟩ := h
  rcases hcases with ⟨-, hplain'⟩ | hmaker
  · exact Fits.of_isPlain hplain' (hsize.symm.trans hfits.size)
  · have hpart : partOf? known e = partOf? known e' := by rw [partOf?, partOf?, hmaker]
    have hplain : isPlain known e = isPlain known e' := by rw [isPlain, isPlain, shareOf, shareOf, hpart]
    exact ⟨hsize.symm.trans hfits.size, by rw [← hplain, ← hpart]; exact hfits.constant⟩

/-- A stack that may arrive at an instruction fits the frame there and leaves the same. -/
theorem of_forall₂_agree (hagree : List.Forall₂ (fun e e' => agree known e e' = true) es es')
    (hfits : List.Forall₂ (Fits known) es vs) :
    List.Forall₂ (Fits known) es' vs ∧ leftover known es vs = leftover known es' vs := by
  induction hagree generalizing vs with
  | nil =>
      cases hfits
      exact ⟨.nil, rfl⟩
  | cons hfirst _ ih =>
      cases hfits with
      | cons hfit hrest =>
          obtain ⟨hfits', hleft⟩ := ih hrest
          exact ⟨.cons (hfit.of_agree hfirst) hfits', by rw [leftover, leftover, left_of_agree hfirst, hleft]⟩

/-- A value that an instruction without a part made. -/
theorem isPlain_of_maker (hlookup : known.lookup index = none)
    (horigin : e.origin.makers = [index]) : isPlain known e := by
  have hmaker : e.maker? = some index := by rw [Expr.maker?, Origin.maker?, horigin]
  rw [isPlain, shareOf, partOf?, hmaker, Option.bind_some, hlookup]
  rfl

theorem shuffle_touched {copy : Expr → Expr} {moving : Effect} {es es' : List Expr}
    (h : Frame.shuffle Domain.exprs.size copy moving es = some es') :
    ∃ top, Frame.shuffle Domain.exprs.size copy moving (es.take (touched moving es)) = some top := by
  fun_cases Frame.shuffle Domain.exprs.size copy moving es
  case case2 rest _ =>
    cases rest <;> simp_all [Frame.shuffle, touched.eq_def, Effect.operands?, Domain.exprs]
  all_goals simp_all [Frame.shuffle, touched.eq_def, Effect.operands?, Domain.exprs]

theorem Fits.copy (hlookup : known.lookup index = none) (instr : Instr) (hfits : Fits known e v) :
    isPlain known (Domain.exprs.copy index instr e) ∧ Fits known (Domain.exprs.copy index instr e) v := by
  have hplain : isPlain known (Domain.exprs.copy index instr e) := isPlain_of_maker hlookup rfl
  exact ⟨hplain, Fits.of_isPlain hplain hfits.size⟩

/-- An instruction that moves no value that changes moves the same values on both stacks. -/
theorem shuffle_carried {moving : Effect} (hlookup : known.lookup index = none)
    (hplain : ∀ e ∈ es.take (touched moving es), isPlain known e)
    (hfits : List.Forall₂ (Fits known) es vs)
    (h : Frame.shuffle Domain.exprs.size (Domain.exprs.copy index instr) moving es = some es') :
    ∃ vs', Frame.shuffle Value.size id moving vs = some vs' ∧
      Frame.shuffle Value.size id moving (leftover known es vs) = some (leftover known es' vs') ∧
      List.Forall₂ (Fits known) es' vs' := by
  obtain ⟨top, htop⟩ := shuffle_touched h
  generalize touched moving es = count at hplain htop
  have hes' : es' = top ++ es.drop count := by
    have happend := Frame.shuffle_append htop (es.drop count)
    rw [List.take_append_drop, h] at happend
    exact Option.some.inj happend
  have hfitsTop : List.Forall₂ (fun e v => isPlain known e ∧ Fits known e v) (es.take count) (vs.take count) :=
    (List.forall₂_and_left _ _).2 ⟨hplain, List.forall₂_take count hfits⟩
  have hfitsRest := List.forall₂_drop count hfits
  obtain ⟨moved, hmoved, hfitsMoved⟩ : ∃ moved, Frame.shuffle Value.size id moving (vs.take count) = some moved ∧
      List.Forall₂ (fun e v => isPlain known e ∧ Fits known e v) top moved :=
    Frame.shuffle_forall₂ (fun _ _ hv => hv.2.size) (fun _ _ hv => hv.2.copy hlookup instr) hfitsTop htop
  have hleft : leftover known es vs = vs.take count ++ leftover known (es.drop count) (vs.drop count) := by
    rw [← leftover_append hplain hfitsTop.length_eq, List.take_append_drop, List.take_append_drop]
  obtain ⟨hplainMoved, hfitsMoved⟩ := (List.forall₂_and_left _ _).1 hfitsMoved
  refine ⟨moved ++ vs.drop count, ?_, ?_, ?_⟩
  · have happend := Frame.shuffle_append hmoved (vs.drop count)
    rwa [List.take_append_drop] at happend
  · rw [hleft, hes', leftover_append hplainMoved hfitsMoved.length_eq]
    exact Frame.shuffle_append hmoved _
  · rw [hes']
    exact List.rel_append hfitsMoved hfitsRest

/-- The store of the folded method. -/
def reduced {σ : Type} (known : List (Nat × Part)) (es : List Expr) (s : Store σ) : Store σ :=
  { s with stack := leftover known es s.stack }

/-- Both methods do the same with their stores, where the first one leaves a stack with the given expressions. -/
def Carried {σ : Type} (known : List (Nat × Part)) (es : List Expr) : Action σ → Action σ → Prop
  | .next s, action => List.Forall₂ (Fits known) es s.stack ∧ action = .next (reduced known es s)
  | .jump target s, action =>
      List.Forall₂ (Fits known) es s.stack ∧ action = .jump target (reduced known es s)
  | .leave result memory, action => action = .leave result memory
  | .throw exception memory, action => action = .throw exception memory
  | .stuck, _ => True

/-- What an instruction that replaces its operands by its result does to a frame. -/
theorem execute_operands {effect : Effect} {frame after : Frame Expr} {count : Nat}
    (hcount : effect.operands? = some count)
    (h : frame.execute Domain.exprs index instr effect = .ok after) :
    ∃ made : Option Expr, after.stack = made.toList ++ frame.stack.drop count ∧
      made.map Expr.origin = effect.result?.map fun kind => ⟨kind.size, [index]⟩ := by
  obtain ⟨hlong, rfl⟩ := Frame.execute_operands_eq_ok hcount h
  obtain ⟨make, hmade, hmake⟩ := Frame.exists_made_eq_map Domain.exprs index instr hcount hlong
  refine ⟨_, rfl, ?_⟩
  rw [hmade, Option.map_map]
  congr 1
  funext kind
  rcases hmake kind with heq | heq | ⟨left, right, heq⟩
  · rw [Function.comp_apply, heq]
    simp only [Domain.exprs]
    split <;> rfl
  · rw [Function.comp_apply, heq]
    rfl
  · rw [Function.comp_apply, heq]
    exact Expr.origin_combine _ _ _ _

section Carried

variable {σ : Type} {w : World σ} {s : Store σ} {effect : Effect} {frame after : Frame Expr} {count : Nat}

/-- Both methods go on alike after they did the same with their operands. -/
theorem finish_carried {made : Option Expr} {kind : Option Kind} {outcome : Option (Outcome σ)}
    (hlookup : known.lookup index = none)
    (hmade : made.map Expr.origin = kind.map fun kind => ⟨kind.size, [index]⟩)
    (hjump : ∀ target, outcome = some (.jump target) → kind = none)
    (hfits : List.Forall₂ (Fits known) es vs) :
    Carried known (made.toList ++ es) (finish s vs kind outcome)
      (finish { s with stack := vs' } (leftover known es vs) kind outcome) := by
  unfold finish
  split
  · next result memory =>
      split
      · next hkind =>
          subst hkind
          cases result with
          | none =>
              obtain rfl : made = none := by simpa using hmade
              exact ⟨hfits, rfl⟩
          | some v =>
              obtain ⟨e, rfl, horigin⟩ := Option.map_eq_some_iff.1 hmade
              have hplain : isPlain known e := isPlain_of_maker hlookup (congrArg Origin.makers horigin)
              have hsize : e.origin.size = v.size := congrArg Origin.size horigin
              refine ⟨.cons (Fits.of_isPlain hplain hsize) hfits, ?_⟩
              exact congrArg (fun stack => Action.next ⟨s.locals, stack, memory⟩)
                (leftover_cons_plain hplain v es vs).symm
      · trivial
  · rfl
  · next target =>
      obtain rfl := hjump target rfl
      obtain rfl : made = none := by simpa using hmade
      exact ⟨hfits, rfl⟩
  · trivial

theorem exec_operands_carried {σ : Type} {w : World σ} {s : Store σ} {effect : Effect} {frame after : Frame Expr}
    {count : Nat} (hcount : effect.operands? = some count) (hlookup : known.lookup index = none)
    (hplain : ∀ e ∈ frame.stack.take count, isPlain known e)
    (hfits : List.Forall₂ (Fits known) frame.stack s.stack)
    (heffect : Effect.ofInstr instr = .ok effect)
    (h : frame.execute Domain.exprs index instr effect = .ok after) :
    Carried known after.stack (execWith w instr s effect)
      (execWith w instr (reduced known frame.stack s) effect) := by
  obtain ⟨made, hafter, hmade⟩ := execute_operands hcount h
  have hlength : (frame.stack.take count).length = (s.stack.take count).length :=
    (List.forall₂_take count hfits).length_eq
  have hrest := List.forall₂_drop count hfits
  have hleft : leftover known frame.stack s.stack =
      s.stack.take count ++ leftover known (frame.stack.drop count) (s.stack.drop count) := by
    rw [← leftover_append hplain hlength, List.take_append_drop, List.take_append_drop]
  rw [execWith_operands hcount, execWith_operands hcount]
  by_cases hshort : s.stack.length < count
  · rw [if_pos hshort]
    trivial
  have htake : (s.stack.take count).length = count := List.length_take_of_le (Nat.le_of_not_lt hshort)
  have hlong : ¬ (reduced known frame.stack s).stack.length < count := by
    simp only [reduced, hleft, List.length_append, htake]
    omega
  rw [if_neg hshort, if_neg hlong]
  have htop : (reduced known frame.stack s).stack.take count = s.stack.take count := by
    rw [reduced, hleft, List.take_left' htake]
  have hbottom : (reduced known frame.stack s).stack.drop count =
      leftover known (frame.stack.drop count) (s.stack.drop count) := by
    rw [reduced, hleft, List.drop_left' htake]
  rw [htop, hbottom, hafter]
  refine finish_carried hlookup hmade ?_ hrest
  intro target htarget
  exact result?_of_targets heffect (operate_eq_jump htarget)

theorem exec_load_carried {slot : UInt16} (hlookup : known.lookup index = none)
    (hwidth : loadsWidth instr (.load slot) frame.locals)
    (hfits : List.Forall₂ (Fits known) frame.stack s.stack)
    (h : frame.execute Domain.exprs index instr (.load slot) = .ok after) :
    Carried known after.stack (execWith w instr s (.load slot))
      (execWith w instr (reduced known frame.stack s) (.load slot)) := by
  obtain ⟨e, hlocal, rfl⟩ := Frame.execute_load_eq_ok.1 h
  rw [execWith_load, execWith_load]
  split
  · next hkind =>
      have hsize : e.origin.size = (s.locals slot).size := by
        simpa [loadsWidth, hkind, hlocal, Value.size] using hwidth
      have hplain : isPlain known (Domain.exprs.copy index instr e) := isPlain_of_maker hlookup rfl
      refine ⟨.cons (Fits.of_isPlain hplain hsize) hfits, ?_⟩
      refine (if_pos hkind).trans ?_
      simp only [reduced, leftover_cons_plain hplain]
  · trivial

theorem exec_store_carried {slot : UInt16}
    (hplain : ∀ e ∈ frame.stack.take 1, isPlain known e)
    (hfits : List.Forall₂ (Fits known) frame.stack s.stack)
    (h : frame.execute Domain.exprs index instr (.store slot) = .ok after) :
    Carried known after.stack (execWith w instr s (.store slot))
      (execWith w instr (reduced known frame.stack s) (.store slot)) := by
  obtain ⟨locals, stack, memory⟩ := s
  obtain ⟨frameLocals, frameStack⟩ := frame
  cases hfits with
  | nil => cases h
  | cons hv hrest =>
      obtain ⟨newLocals, -, rfl⟩ := map_eq_ok.1 h
      have hfirst := hplain _ List.mem_cons_self
      simp only [reduced, leftover_cons_plain hfirst]
      rw [execWith_store, execWith_store]
      split
      · exact ⟨hrest, rfl⟩
      · trivial

theorem exec_iinc_carried {slot : UInt16} (hfits : List.Forall₂ (Fits known) frame.stack s.stack)
    (h : frame.execute Domain.exprs index instr (.iinc slot) = .ok after) :
    Carried known after.stack (execWith w instr s (.iinc slot))
      (execWith w instr (reduced known frame.stack s) (.iinc slot)) := by
  obtain ⟨-, stored, -, rfl⟩ := Frame.execute_iinc_eq_ok.1 h
  obtain ⟨written, hwritten⟩ := exists_execWith_iinc instr s.locals slot
  rw [hwritten w s rfl, hwritten w (reduced known frame.stack s) rfl]
  split
  · exact ⟨hfits, rfl⟩
  · trivial

theorem exec_leave_carried {value : Bool}
    (hplain : ∀ e ∈ frame.stack.take (if value then 1 else 0), isPlain known e)
    (hfits : List.Forall₂ (Fits known) frame.stack s.stack) :
    Carried known es (execWith w instr s (.leave value))
      (execWith w instr (reduced known frame.stack s) (.leave value)) := by
  obtain ⟨locals, stack, memory⟩ := s
  obtain ⟨frameLocals, frameStack⟩ := frame
  cases value with
  | false => rfl
  | true =>
      cases hfits with
      | nil => trivial
      | cons hv hrest =>
          have hfirst := hplain _ List.mem_cons_self
          simp only [reduced, leftover_cons_plain hfirst]
          rfl

theorem exec_throw_carried (hplain : ∀ e ∈ frame.stack.take 1, isPlain known e)
    (hfits : List.Forall₂ (Fits known) frame.stack s.stack) :
    Carried known es (execWith w instr s .throw)
      (execWith w instr (reduced known frame.stack s) .throw) := by
  obtain ⟨locals, stack, memory⟩ := s
  obtain ⟨frameLocals, frameStack⟩ := frame
  cases hfits with
  | nil => trivial
  | @cons e v es vs hv hrest =>
      have hfirst := hplain _ List.mem_cons_self
      simp only [reduced, leftover_cons_plain hfirst]
      rcases v with _ | _ | _ | _ | ⟨_ | _⟩ <;> trivial

theorem exec_moving_carried (hmoving : effect.isMoving) (hlookup : known.lookup index = none)
    (hplain : ∀ e ∈ frame.stack.take (touched effect frame.stack), isPlain known e)
    (hfits : List.Forall₂ (Fits known) frame.stack s.stack)
    (h : frame.execute Domain.exprs index instr effect = .ok after) :
    Carried known after.stack (execWith w instr s effect)
      (execWith w instr (reduced known frame.stack s) effect) := by
  obtain ⟨es', hmoved, rfl⟩ := Frame.execute_moving_eq_ok hmoving h
  obtain ⟨vs', hvs', hleft, hfits'⟩ := shuffle_carried hlookup hplain hfits hmoved
  rw [execWith_moving hmoving, execWith_moving hmoving, hvs', reduced, hleft]
  exact ⟨hfits', rfl⟩

/-- An instruction without a part does the same in both methods. -/
theorem exec_carried (heffect : Effect.ofInstr instr = .ok effect) (hlookup : known.lookup index = none)
    (hplain : ∀ e ∈ frame.stack.take (touched effect frame.stack), isPlain known e)
    (hwidth : loadsWidth instr effect frame.locals)
    (hfits : List.Forall₂ (Fits known) frame.stack s.stack)
    (h : frame.execute Domain.exprs index instr effect = .ok after) :
    Carried known after.stack (execWith w instr s effect)
      (execWith w instr (reduced known frame.stack s) effect) := by
  cases effect with
  | nop | push | unary | binary | ternary | nary =>
      exact exec_operands_carried rfl hlookup hplain hfits heffect h
  | load slot => exact exec_load_carried hlookup hwidth hfits h
  | store slot => exact exec_store_carried hplain hfits h
  | iinc slot => exact exec_iinc_carried hfits h
  | leave value =>
      refine exec_leave_carried ?_ hfits
      cases value <;> exact hplain
  | throw => exact exec_throw_carried hplain hfits
  | pop | pop2 | dup | dupX1 | dupX2 | dup2 | dup2X1 | dup2X2 | swap =>
      exact exec_moving_carried rfl hlookup hplain hfits h

end Carried

end Multiplier.Fold

end Unscramble
