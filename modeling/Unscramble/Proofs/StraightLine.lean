/-
Analysis of code without branches.  Where every instruction goes on to the next one and the last one leaves the method,
an analysis in any domain executes each instruction once and in order, so its trace can be read off the code.
-/
import Unscramble.Analysis.Basic
import Unscramble.Proofs.Flow

namespace Unscramble

/-- The parameters of the method can be read, and none of them is void. -/
def MethodDecl.HasParameters (m : MethodDecl) : Prop :=
  ∃ params, Descriptor.parameters m.descriptor = .ok params ∧ ∀ type ∈ params, (Kind.ofType? type).isSome

namespace Analysis

variable {V : Type} {d : Domain V} {m : MethodDecl} {flow : Flow} {index : Nat} {instr : Instr} {effect : Effect}
  {before after entry : Frame V} {p : Progress V}

/-- From a frame before the first of the instructions that are left, which stands at `index`, execution goes through
them one after another and leaves the method at the last one; with the events of this. -/
inductive Straight (d : Domain V) : List Instr → Nat → Frame V → List (Event V) → Prop where
  | leave {instr : Instr} {index : Nat} {effect : Effect} {before after : Frame V} :
      Effect.ofInstr instr = .ok effect → (∀ flow : Flow, flow.successors index instr effect = .ok []) →
      before.execute d index instr effect = .ok after → Straight d [instr] index before [.step index before]
  | next {instr : Instr} {rest : List Instr} {index : Nat} {effect : Effect} {before after : Frame V}
      {events : List (Event V)} :
      Effect.ofInstr instr = .ok effect → (∀ flow : Flow, flow.successors index instr effect = .ok [index + 1]) →
      before.execute d index instr effect = .ok after → Straight d rest (index + 1) after events →
      Straight d (instr :: rest) index before (.step index before :: .edge index (index + 1) :: events)

theorem Straight.exists_effect {code : List Instr} {events : List (Event V)} (h : Straight d code index before events) :
    ∀ instr ∈ code, ∃ effect, Effect.ofInstr instr = .ok effect := by
  induction h with
  | leave heffect _ _ => exact List.forall_mem_singleton.2 ⟨_, heffect⟩
  | next heffect _ _ _ ih => exact List.forall_mem_cons.2 ⟨⟨_, heffect⟩, ih⟩

theorem Straight.length_pos {code : List Instr} {events : List (Event V)} (h : Straight d code index before events) :
    0 < code.length := by
  cases h <;> exact Nat.succ_pos _

/-- Only the instruction at `index` waits, with a frame, and no instruction behind it has been met. -/
structure Arrived (index : Nat) (frame : Frame V) (p : Progress V) : Prop where
  pending : p.pending = [index]
  here : p.frames[index]? = some (some frame)
  ahead : ∀ later, index < later → (p.frames[later]?).join = none

/-- A frame arrives at an instruction that has none. -/
theorem arrive_ahead {target : Nat} (h : (p.frames[target]?).join = none) (frame : Frame V) :
    (arrive d target frame).run p = .ok () { p with
      frames := p.frames.setIfInBounds target (some frame)
      pending := enqueue target p.pending } := by
  simp only [arrive, EStateM.run_bind, EStateM.run_get, h, EStateM.run_modify]

/-- Following an instruction with one successor, the next one, that has not been met. -/
theorem follow_next (hhandlers : flow.handlers = []) (hcode : flow.code[index]? = some (instr, effect))
    (hnext : flow.successors index instr effect = .ok [index + 1])
    (hafter : before.execute d index instr effect = .ok after) (hlt : index + 1 < flow.code.size)
    (hframe : p.frames[index]? = some (some before)) (hahead : (p.frames[index + 1]?).join = none) :
    (follow d flow index).run p = .ok ()
      ⟨p.frames.setIfInBounds (index + 1) (some after), enqueue (index + 1) p.pending,
        .edge index (index + 1) :: .step index before :: p.events⟩ := by
  have harrive := arrive_ahead (d := d)
    (p := ⟨p.frames, p.pending, .edge index (index + 1) :: .step index before :: p.events⟩) hahead after
  simp [follow, hframe, hcode, hafter, hnext, hhandlers, note, MonadExcept.ofExcept, Nat.not_le.2 hlt, harrive]

/-- Following an instruction that leaves the method. -/
theorem follow_leave (hhandlers : flow.handlers = []) (hcode : flow.code[index]? = some (instr, effect))
    (hnext : flow.successors index instr effect = .ok []) (hafter : before.execute d index instr effect = .ok after)
    (hframe : p.frames[index]? = some (some before)) :
    (follow d flow index).run p = .ok () { p with events := .step index before :: p.events } := by
  simp [follow, hframe, hcode, hafter, hnext, hhandlers, note, MonadExcept.ofExcept]

/-- One step of an analysis of straight code. -/
theorem Arrived.next (hp : Arrived index before p) (hhandlers : flow.handlers = [])
    (hcode : flow.code[index]? = some (instr, effect)) (hnext : flow.successors index instr effect = .ok [index + 1])
    (hafter : before.execute d index instr effect = .ok after) (hlt : index + 1 < flow.code.size)
    (hsize : p.frames.size = flow.code.size) :
    ∃ q, (follow d flow index).run { p with pending := [] } = .ok () q ∧ Arrived (index + 1) after q ∧
      q.frames.size = flow.code.size ∧ q.events = .edge index (index + 1) :: .step index before :: p.events := by
  refine ⟨_, follow_next hhandlers hcode hnext hafter hlt hp.here (hp.ahead _ (Nat.lt_succ_self _)), ?_, ?_, rfl⟩
  · have hin : index + 1 < p.frames.size := hsize ▸ hlt
    refine ⟨rfl, Array.getElem?_setIfInBounds_self_of_lt hin, fun later hlater => ?_⟩
    rw [Array.getElem?_setIfInBounds_ne (by omega)]
    exact hp.ahead later (by omega)
  · rw [Array.size_setIfInBounds, hsize]

theorem getElem?_behind {α : Type} {front : List α} (a : α) (rest : List α) (h : front.length = index) :
    (front ++ a :: rest)[index]? = some a := by
  rw [List.getElem?_append_right (Nat.le_of_eq h), h, Nat.sub_self, List.getElem?_cons_zero]

/-- An analysis that has come to straight code goes through all of it. -/
theorem settle_straight (front : List Instr) {code : List Instr} {events : List (Event V)} {budget : Nat}
    (h : Straight d code index before events) (hflow : flow.Describes m) (hhandlers : flow.handlers = [])
    (hcode : m.code = front ++ code) (hindex : front.length = index) (hp : Arrived index before p)
    (hsize : p.frames.size = flow.code.size) (hbudget : code.length ≤ budget) :
    ∃ q, (settle d flow budget).run p = .ok () q ∧ q.events = events.reverse ++ p.events := by
  have hlength := hflow.size_eq
  rw [hcode, List.length_append] at hlength
  induction h generalizing front budget p with
  | @leave instr index effect before after heffect hnext hafter =>
      obtain ⟨effect', hplaced, heffect'⟩ := hflow.exists_effect (hcode ▸ getElem?_behind instr _ hindex)
      obtain rfl := Except.ok.inj (heffect.symm.trans heffect')
      obtain ⟨budget, rfl⟩ := Nat.exists_eq_add_of_le' hbudget
      have hfollow := follow_leave (p := { p with pending := [] }) hhandlers hplaced (hnext flow) hafter hp.here
      refine ⟨{ p with pending := [], events := .step index before :: p.events }, ?_, rfl⟩
      simp only [List.length_singleton, settle, EStateM.run_bind, EStateM.run_get, hp.pending, EStateM.run_modify,
        hfollow]
      cases budget <;> rfl
  | @next instr rest index effect before after events heffect hnext hafter hrest ih =>
      obtain ⟨effect', hplaced, heffect'⟩ := hflow.exists_effect (hcode ▸ getElem?_behind instr _ hindex)
      obtain rfl := Except.ok.inj (heffect.symm.trans heffect')
      rw [List.length_cons] at hbudget hlength
      obtain ⟨budget, rfl⟩ := Nat.exists_eq_add_of_le' (Nat.le_trans (Nat.le_add_left 1 _) hbudget)
      have hlt : index + 1 < flow.code.size := by
        have := hrest.length_pos
        omega
      obtain ⟨middle, hfollow, harrived, hsize', hevents⟩ := hp.next hhandlers hplaced (hnext flow) hafter hlt hsize
      obtain ⟨q, hq, hqevents⟩ := ih (front ++ [instr]) (by simpa using hcode) (by simpa using hindex)
        harrived hsize' (Nat.le_of_succ_le_succ hbudget) (by rw [List.length_append, List.length_singleton]; omega)
      refine ⟨q, ?_, by simp [hqevents, hevents]⟩
      simp only [settle, EStateM.run_bind, EStateM.run_get, hp.pending, EStateM.run_modify, hfollow]
      exact hq

/-- The analysis of a method with straight code and without handlers succeeds. -/
theorem analyze_straight {events : List (Event V)} (h : Straight d m.code 0 entry events) (htries : m.tries = [])
    (hentry : entryFrame d m = .ok entry) : ∃ frames, analyze d m = ⟨events, .ok frames⟩ := by
  obtain ⟨flow, hflow⟩ := Flow.exists_ofMethod (by simp [htries]) h.exists_effect
  have hdescribes := Flow.ofMethod_describes hflow
  have hhandlers : flow.handlers = [] := by
    have := hdescribes.handlers
    rwa [htries, List.forall₂_nil_left_iff] at this
  have hpos : 0 < flow.code.size := hdescribes.size_eq ▸ h.length_pos
  have hstart : Arrived 0 entry
      (⟨(Array.replicate flow.code.size none).setIfInBounds 0 (some entry), [0], []⟩ : Progress V) := by
    refine ⟨rfl, Array.getElem?_setIfInBounds_self_of_lt (by simpa using hpos), fun later hlater => ?_⟩
    rw [Array.getElem?_setIfInBounds_ne (by omega), Array.getElem?_replicate]
    split <;> rfl
  have hbudget : m.code.length ≤ flow.code.size * visitsPerInstr := by
    rw [hdescribes.size_eq]
    exact Nat.le_mul_of_pos_right _ (by decide)
  obtain ⟨q, hq, hevents⟩ := settle_straight [] h hdescribes hhandlers rfl rfl hstart (by simp) hbudget
  refine ⟨q.frames, ?_⟩
  rw [analyze, if_neg (by simpa using List.ne_nil_of_length_pos h.length_pos), hflow, hentry]
  simp only [hq, hevents, List.append_nil, List.reverse_reverse]

section Entry

theorem le_foldl_max {α : Type} (f : α → Nat) (items : List α) (first : Nat) :
    first ≤ items.foldl (fun highest a => max highest (f a)) first ∧
      ∀ a ∈ items, f a ≤ items.foldl (fun highest a => max highest (f a)) first := by
  induction items generalizing first with
  | nil => exact ⟨Nat.le_refl first, nofun⟩
  | cons a rest ih =>
      obtain ⟨hfirst, hrest⟩ := ih (max first (f a))
      rw [List.foldl_cons]
      exact ⟨Nat.le_trans (Nat.le_max_left ..) hfirst,
        List.forall_mem_cons.2 ⟨Nat.le_trans (Nat.le_max_right ..) hfirst, hrest⟩⟩

theorem slots_le_slotsUsed (h : instr ∈ m.code) :
    MethodDecl.slotsUsed.slots instr ≤ m.slotsUsed :=
  (le_foldl_max MethodDecl.slotsUsed.slots m.code 0).2 instr h

/-- A slot that an instruction loads is in use. -/
theorem slot_lt_slotsUsed {op : Opcode} {slot : UInt16} (h : .var op slot ∈ m.code) : slot.toNat < m.slotsUsed := by
  have hslots : slot.toNat < MethodDecl.slotsUsed.slots (.var op slot) := by
    rw [MethodDecl.slotsUsed.slots]
    split <;> omega
  exact Nat.lt_of_lt_of_le hslots (slots_le_slotsUsed h)

/-- On entry to a method with parameters all slots that are in use are there. -/
theorem exists_entryFrame (d : Domain V) (h : m.HasParameters) :
    ∃ locals, entryFrame d m = .ok ⟨locals, []⟩ ∧ m.slotsUsed ≤ locals.length := by
  obtain ⟨params, hparams, hvalues⟩ := h
  have hentry : ∃ locals, entryLocals d m.isStatic params (max m.slotsUsed m.maxLocals.toNat) = .ok locals ∧
      m.slotsUsed ≤ locals.length := by
    refine (exists_mapM_eq_ok fun type htype => ?_).elim fun kinds hkinds => ⟨_, bind_eq_ok.2 ⟨kinds, hkinds, rfl⟩, ?_⟩
    · obtain ⟨kind, hkind⟩ := Option.isSome_iff_exists.1 (hvalues type htype)
      exact ⟨kind, by rw [hkind]⟩
    · rw [List.length_append, List.length_replicate]
      omega
  obtain ⟨locals, hlocals, hlength⟩ := hentry
  refine ⟨locals, ?_, hlength⟩
  rw [entryFrame, hparams]
  exact bind_eq_ok.2 ⟨locals, hlocals, rfl⟩

end Entry

end Analysis

end Unscramble
