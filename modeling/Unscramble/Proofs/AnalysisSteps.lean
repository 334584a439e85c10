/-
What the steps of an analysis do when none of them fails: what an arrival makes of the state, where following an
instruction lets frames arrive, and what settling and a whole analysis keep because each instruction that is followed
keeps it.
-/
import Unscramble.Analysis.Basic

namespace Unscramble

variable {V : Type}

/-- The frame with which an exception arrives at its handler. -/
def Frame.atHandler (d : Domain V) (f : Frame V) : Frame V :=
  { f with stack := [d.fresh .reference] }

/-- The frame at an instruction so far. -/
def Progress.frameAt (p : Progress V) (index : Nat) : Option (Frame V) :=
  (p.frames[index]?).join

namespace Analysis

variable {d : Domain V} {flow : Flow} {p q : Progress V}

/-- What an arrival makes of a state: the instruction gets its first frame, or the frame that it has is joined with the
one that arrives. -/
theorem arrive_eq_ok {target : Nat} {frame : Frame V} (h : (arrive d target frame).run p = .ok () q) :
    p.frameAt target = none ∧
        q = ⟨p.frames.setIfInBounds target (some frame), enqueue target p.pending, p.events⟩ ∨
      ∃ present merged changed, p.frameAt target = some present ∧ present.merge d frame = .ok (merged, changed) ∧
        q = if changed then ⟨p.frames.setIfInBounds target (some merged), enqueue target p.pending,
            .join present frame :: p.events⟩ else { p with events := .join present frame :: p.events } := by
  simp only [arrive, EStateM.run_bind, EStateM.run_get] at h
  split at h
  · next hnone =>
      simp only [EStateM.run_modify, EStateM.Result.ok.injEq, true_and] at h
      exact .inl ⟨hnone, h.symm⟩
  · next present hpresent =>
      split at h
      · simp at h
      · next merged changed hmerge =>
          refine .inr ⟨present, merged, changed, hpresent, hmerge, ?_⟩
          simp only [note, EStateM.run_bind, EStateM.run_modify] at h
          split at h
          · next hchanged =>
              simp only [EStateM.run_modify, EStateM.Result.ok.injEq, true_and] at h
              rw [if_pos hchanged, h]
          · next hchanged =>
              simp only [EStateM.run_pure, EStateM.Result.ok.injEq, true_and] at h
              rw [if_neg hchanged, h]

/-- Lets the result of an instruction arrive along an edge, which is noted. -/
def arriveAlong (d : Domain V) (flow : Flow) (index : Nat) (after : Frame V) (target : Nat) : Run V Unit := do
  if flow.code.size ≤ target then throw .fallsOff
  note (.edge index target)
  arrive d target after

/-- Lets an exception arrive at the handler of a range, if the range covers the instruction. -/
def arriveAtHandler (d : Domain V) (index : Nat) (before : Frame V) (range : HandlerRange) : Run V Unit := do
  if range.covers index then arrive d range.handler (before.atHandler d)

theorem arriveAlong_eq_ok {index target : Nat} {after : Frame V}
    (h : (arriveAlong d flow index after target).run p = .ok () q) : target < flow.code.size ∧
      (arrive d target after).run { p with events := .edge index target :: p.events } = .ok () q := by
  by_cases hsize : flow.code.size ≤ target
  · simp [arriveAlong, hsize] at h
  · simp only [arriveAlong, hsize, ↓reduceIte, note, EStateM.run_bind, EStateM.run_modify] at h
    exact ⟨Nat.lt_of_not_le hsize, h⟩

theorem arriveAtHandler_eq_ok {index : Nat} {before : Frame V} {range : HandlerRange}
    (h : (arriveAtHandler d index before range).run p = .ok () q) :
    range.covers index = true ∧ (arrive d range.handler (before.atHandler d)).run p = .ok () q ∨
      range.covers index ≠ true ∧ q = p := by
  by_cases hcovers : range.covers index = true
  · simp only [arriveAtHandler, hcovers, ↓reduceIte] at h
    exact .inl ⟨hcovers, h⟩
  · simp only [arriveAtHandler, hcovers, Bool.false_eq_true, ↓reduceIte, EStateM.run_pure, EStateM.Result.ok.injEq,
      true_and] at h
    exact .inr ⟨hcovers, h.symm⟩

/-- What following an instruction does: it executes, and the result arrives at all successors and then an exception at
all handlers.  Without a frame there is nothing to follow. -/
theorem follow_eq_ok {index : Nat} (h : (follow d flow index).run p = .ok () q) :
    (∃ instr effect before after next middle, flow.code[index]? = some (instr, effect) ∧
        p.frameAt index = some before ∧ before.execute d index instr effect = .ok after ∧
        flow.successors index instr effect = .ok next ∧
        (next.forM (arriveAlong d flow index after)).run { p with events := .step index before :: p.events } =
          .ok () middle ∧
        (flow.handlers.forM (arriveAtHandler d index before)).run middle = .ok () q) ∨
      (∀ instr effect before, flow.code[index]? = some (instr, effect) → p.frameAt index ≠ some before) ∧ q = p := by
  simp only [follow, EStateM.run_bind, EStateM.run_get] at h
  split at h
  · next instr effect before hcode hbefore =>
      split at h
      · simp at h
      · next after hafter =>
          simp only [note, EStateM.run_bind, EStateM.run_modify] at h
          cases hnext : flow.successors index instr effect with
          | error reason =>
              rw [hnext] at h
              cases h
          | ok next =>
              simp only [hnext, MonadExcept.ofExcept, EStateM.run_pure] at h
              split at h
              · next middle hmiddle =>
                  exact .inl ⟨instr, effect, before, after, next, middle, hcode, hbefore, hafter, hnext, hmiddle, h⟩
              · simp at h
  · next hmissing =>
      simp only [EStateM.run_pure, EStateM.Result.ok.injEq, true_and] at h
      exact .inr ⟨fun instr effect before hcode => hmissing instr effect before hcode, h.symm⟩

/-- What every one of several actions keeps, all of them in a row keep. -/
theorem forM_keeps {ι : Type} {I : Progress V → Prop} {items : List ι} {action : ι → Run V Unit}
    (hstep : ∀ x ∈ items, ∀ p q : Progress V, I p → (action x).run p = .ok () q → I q) (hp : I p)
    (h : (items.forM action).run p = .ok () q) : I q := by
  induction items generalizing p with
  | nil =>
      simp only [List.forM_eq_forM, List.forM_nil, EStateM.run_pure, EStateM.Result.ok.injEq, true_and] at h
      exact h ▸ hp
  | cons x rest ih =>
      simp only [List.forM_eq_forM, List.forM_cons, EStateM.run_bind] at h
      split at h
      · next middle hfirst =>
          exact ih (fun y hy => hstep y (List.mem_cons_of_mem x hy)) (hstep x List.mem_cons_self p middle hp hfirst) h
      · simp at h

/-- What is kept when the instruction that waits first is taken and followed is kept until nothing waits. -/
theorem settle_keeps {I : Progress V → Prop} (hfollow : ∀ (p q : Progress V) (index : Nat) (rest : List Nat), I p →
      p.pending = index :: rest → (follow d flow index).run { p with pending := rest } = .ok () q → I q)
    {budget : Nat} (hp : I p) (h : (settle d flow budget).run p = .ok () q) : I q ∧ q.pending = [] := by
  induction budget generalizing p with
  | zero =>
      simp only [settle, EStateM.run_bind, EStateM.run_get] at h
      split at h
      · next hpending =>
          simp only [EStateM.run_pure, EStateM.Result.ok.injEq, true_and] at h
          exact h ▸ ⟨hp, hpending⟩
      · simp at h
  | succ budget ih =>
      simp only [settle, EStateM.run_bind, EStateM.run_get] at h
      split at h
      · next hpending =>
          simp only [EStateM.run_pure, EStateM.Result.ok.injEq, true_and] at h
          exact h ▸ ⟨hp, hpending⟩
      · next index rest hpending =>
          simp only [EStateM.run_bind, EStateM.run_modify] at h
          split at h
          · next middle hmiddle => exact ih (hfollow p middle index rest hp hpending hmiddle) h
          · simp at h

/-- Without code there is nothing that could have a frame. -/
theorem frames_of_noCode {d : Domain V} {m : MethodDecl} {frames : Array (Option (Frame V))} (hcode : m.code = [])
    (h : (analyze d m).result = .ok frames) : frames = #[] := by
  rw [analyze, hcode] at h
  exact (Except.ok.inj h).symm

/-- An analysis that gives frames has settled, from the entry frame, in a state with these frames. -/
theorem exists_settle {m : MethodDecl} {frames : Array (Option (Frame V))} (hcode : m.code ≠ [])
    (h : (analyze d m).result = .ok frames) :
    ∃ flow entry q, Flow.ofMethod m = .ok flow ∧ entryFrame d m = .ok entry ∧
      (settle d flow (flow.code.size * visitsPerInstr)).run
        { frames := (Array.replicate flow.code.size none).setIfInBounds 0 (some entry), pending := [0] } = .ok () q ∧
      q.frames = frames ∧ analyze d m = ⟨q.events.reverse, .ok q.frames⟩ := by
  unfold analyze at h ⊢
  rw [if_neg (by simpa using hcode)] at h ⊢
  cases hflow : Flow.ofMethod m with
  | error reason => simp [hflow] at h
  | ok flow =>
      cases hentry : entryFrame d m with
      | error reason => simp [hflow, hentry] at h
      | ok entry =>
          simp only [hflow, hentry] at h ⊢
          split at h
          · next u q hrun => exact ⟨flow, entry, q, rfl, rfl, hrun, Except.ok.inj h, rfl⟩
          · simp at h

end Analysis

end Unscramble
